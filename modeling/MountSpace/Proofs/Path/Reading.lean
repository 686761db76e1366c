import MountSpace.Proofs.Outcome
import MountSpace.Proofs.Path.Normal
import MountSpace.Status

/-!
# Reading paths again

Whatever is read as a path is in normal form.  A path from a root that is written out and read
again comes back with its last name settled: blanks at its end are gone, and when nothing or dots
remain, it leads nowhere or up.  Stores read the paths they are given, so this decides under which
names an entry is kept.

## Main definitions

* `rootText` — names written out from a root.
* `settle` — the names as they are read again.
* `Inward` — names that do not lead out of the directory from which they are followed.
* `rise` — how far the directory of a path lies above it, once the path is read again.
-/

namespace MountSpace

namespace Path

/-! ## The normal form is reached -/

/-- The stack of `collapse` holds ordinary names on top of double dots, and from a root no double
dots. -/
theorem foldl_push_normal {names : List String} (hslash : ∀ n ∈ names, '/' ∉ n.toList)
    (absolute : Bool) (top : List String) (htop : ∀ n ∈ top, Ordinary n) (ups : ℕ)
    (hups : absolute = true → ups = 0) :
    ∃ ups' top', names.foldl (push absolute) (top ++ List.replicate ups "..") =
        top' ++ List.replicate ups' ".." ∧ (∀ n ∈ top', Ordinary n) ∧
        (absolute = true → ups' = 0) := by
  induction names generalizing top ups with
  | nil => exact ⟨ups, top, rfl, htop, hups⟩
  | cons name names ih =>
    have hrest : ∀ n ∈ names, '/' ∉ n.toList := fun n hn => hslash n (by simp [hn])
    rw [List.foldl_cons]
    by_cases hdrop : name = "" ∨ name = "."
    · rw [push_of_skipped hdrop]
      exact ih hrest top htop ups hups
    by_cases hdots : name = ".."
    · subst hdots
      cases top with
      | cons last top =>
        have hlast : last ≠ ".." := (htop last (by simp)).2.2.1
        have hpush : push absolute (last :: top ++ List.replicate ups "..") ".." =
            top ++ List.replicate ups ".." := by simp [push, hlast]
        rw [hpush]
        exact ih hrest top (fun n hn => htop n (by simp [hn])) ups hups
      | nil =>
        cases absolute with
        | true =>
          rw [hups rfl]
          exact ih hrest [] (by simp) 0 fun _ => rfl
        | false =>
          have hpush : push false (List.replicate ups "..") ".." =
              List.replicate (ups + 1) ".." := by
            cases ups <;> simp [push, List.replicate_succ]
          rw [List.nil_append, hpush]
          exact ih hrest [] (by simp) (ups + 1) (by simp)
    · have hname : Ordinary name :=
        ⟨fun h => hdrop (.inl h), fun h => hdrop (.inr h), hdots, hslash name (by simp)⟩
      rw [push_ordinary hname]
      exact ih hrest (name :: top)
        (fun n hn => (List.mem_cons.mp hn).elim (fun h => h ▸ hname) (htop n)) ups hups

/-- The pieces between slashes hold no slash. -/
theorem slash_not_mem_splitNames {cs : List Char} {name : String} (h : name ∈ splitNames cs) :
    '/' ∉ name.toList := by
  obtain ⟨piece, hpiece, rfl⟩ := List.mem_map.mp h
  rw [String.toList_ofList]
  clear h
  induction cs generalizing piece with
  | nil => simp_all
  | cons c cs ih =>
    rw [List.splitOn_cons_eq_if_modifyHead] at hpiece
    split at hpiece
    · rcases List.mem_cons.mp hpiece with rfl | hpiece
      · simp
      · exact ih piece hpiece
    · rename_i hc
      cases hs : cs.splitOn '/' with
      | nil => exact absurd hs (List.splitOn_ne_nil _ _)
      | cons first rest =>
        rw [hs, List.modifyHead_cons] at hpiece
        rcases List.mem_cons.mp hpiece with rfl | hpiece
        · have hfirst := ih first (by simp [hs])
          have hc' : '/' ≠ c := fun h => hc (by subst h; rfl)
          simp [hfirst, hc']
        · exact ih piece (by simp [hs, hpiece])

/-- Whatever is read is in normal form. -/
theorem normal_of_parse {raw : String} {p : Path} (h : parse raw = .ok p) : p.Normal := by
  unfold parse at h
  split at h
  · cases h
  · dsimp only at h
    split at h
    · cases h
    split at h
    · cases h
    rename_i hempty
    cases h
    generalize hparts : split (Text.trim raw.toList) = parts at hempty ⊢
    have hslash : ∀ n ∈ splitNames parts.body, '/' ∉ n.toList :=
      fun n hn => slash_not_mem_splitNames hn
    obtain ⟨ups, top, hstack, htop, hups⟩ :=
      foldl_push_normal hslash parts.isAbsolute [] (by simp) 0 fun _ => rfl
    refine ⟨⟨ups, top.reverse, ?_, by simpa using htop, hups⟩, ?_, ?_⟩
    · have hcollapse : parts.toPath.segments =
          ((splitNames parts.body).foldl (push parts.isAbsolute) []).reverse := rfl
      rw [hcollapse]
      simp only [List.replicate_zero, List.append_nil] at hstack
      simp [hstack]
    · intro hstated
      have hsome : parts.scheme.isSome = true ∨ parts.authority.isSome = true := by
        rcases Bool.or_eq_true _ _ |>.mp hstated with hs | ha
        · exact .inl (by simpa [Parts.toPath, Parts.location] using hs)
        · right
          cases hauth : parts.authority with
          | none => simp [Parts.toPath, Parts.location, hauth] at ha
          | some cs => rfl
      change parts.isAbsolute = true
      rcases hsome with hs | ha
      · simp [Parts.isAbsolute, hs]
      · simp [Parts.isAbsolute, ha]
    · intro hrel hnil
      have hnone : parts.toPath.segments.isEmpty = true := by rw [hnil]; rfl
      simp [hnone, hrel] at hempty

theorem normal_of_read {raw : String} {p : Path} (h : read raw = .ok p) : p.Normal :=
  normal_of_parse (mapError_eq_ok.mp h)

/-! ## Names written out from a root -/

/-- Names written out from a root. -/
def rootText (names : List String) : String := (⟨{}, names, true⟩ : Path).localText

/-- The characters of names, each after a slash. -/
def spell (names : List (List Char)) : List Char := names.flatMap ('/' :: ·)

@[simp] theorem spell_nil : spell [] = [] := rfl

@[simp] theorem spell_cons (name : List Char) (names : List (List Char)) :
    spell (name :: names) = '/' :: (name ++ spell names) := rfl

theorem spell_append (names more : List (List Char)) :
    spell (names ++ more) = spell names ++ spell more := by
  simp [spell]

theorem rootText_nil : rootText [] = "/" := rfl

theorem intercalate_slash {names : List (List Char)} (h : names ≠ []) :
    '/' :: ['/'].intercalate names = spell names := by
  induction names with
  | nil => exact absurd rfl h
  | cons name names ih =>
    cases names with
    | nil => simp
    | cons next names => simpa [List.intercalate_cons_cons] using ih (by simp)

theorem toList_rootText {names : List String} (h : names ≠ []) :
    (rootText names).toList = spell (names.map String.toList) := by
  rw [← intercalate_slash (by simpa using h)]
  simp [rootText, localText]

theorem toList_rootText_append {front names : List String} (hf : front ≠ []) (hne : names ≠ []) :
    (rootText (front ++ names)).toList = (rootText front).toList ++ (rootText names).toList := by
  rw [toList_rootText hf, toList_rootText hne, toList_rootText (by simp [hne]), List.map_append,
    spell_append]

theorem splitOn_spell {names : List (List Char)} (h : ∀ n ∈ names, '/' ∉ n) :
    (spell names).splitOn '/' = [] :: names := by
  cases names with
  | nil => rfl
  | cons name names =>
    rw [← intercalate_slash (by simp), ← List.nil_append ('/' :: _),
      List.splitOn_append_cons_self_of_not_mem (by simp), List.splitOn_intercalate _ h (by simp)]

theorem slash_not_mem_toList {names : List String} (h : ∀ n ∈ names, Ordinary n) :
    ∀ cs ∈ names.map String.toList, '/' ∉ cs := by
  intro cs hcs
  obtain ⟨n, hn, rfl⟩ := List.mem_map.mp hcs
  exact (h n hn).2.2.2

theorem rootText_ne {names : List String} (hn : ∀ n ∈ names, Ordinary n) (hne : names ≠ []) :
    rootText names ≠ "/" := by
  intro h
  have hlist := toList_rootText hne
  rw [h] at hlist
  cases names with
  | nil => exact absurd rfl hne
  | cons name names =>
    have hempty : name.toList = [] := by
      have : [] = name.toList ++ spell (names.map String.toList) := by simpa using hlist
      exact (List.append_eq_nil_iff.mp this.symm).1
    exact (hn name (by simp)).1 (String.toList_eq_nil_iff.mp hempty)

/-- Different names are written differently. -/
theorem rootText_inj {names more : List String} (hn : ∀ n ∈ names, Ordinary n)
    (hm : ∀ n ∈ more, Ordinary n) (h : rootText names = rootText more) : names = more := by
  by_cases hne : names = []
  · subst hne
    by_contra hmore
    exact rootText_ne hm (Ne.symm hmore) h.symm
  by_cases hme : more = []
  · subst hme
    exact absurd h (rootText_ne hn hne)
  have hspell := congrArg String.toList h
  rw [toList_rootText hne, toList_rootText hme] at hspell
  have hsplit := congrArg (List.splitOn '/') hspell
  rw [splitOn_spell (slash_not_mem_toList hn), splitOn_spell (slash_not_mem_toList hm)] at hsplit
  exact List.map_injective_iff.mpr (fun _ _ h => String.toList_inj.mp h)
    (List.cons.inj hsplit).2

/-! ## Reading them again -/

/-- A name without the blanks at its end. -/
def shorten (name : String) : String := String.ofList (name.toList.rdropWhile Text.isBlank)

/-- The names as they are read again: the last one loses the blanks at its end, and is dropped or
worked off if nothing or dots remain of it. -/
def settle (names : List String) : List String :=
  collapse true (names.dropLast ++ names.getLast?.toList.map shorten)

theorem settle_concat (names : List String) (name : String) :
    settle (names ++ [name]) = collapse true (names ++ [shorten name]) := by
  simp [settle]

theorem isBlank_slash : Text.isBlank '/' = false := by decide

/-- Trimming takes the blanks off what stands behind a slash. -/
theorem trim_append_slash {front : List Char} (back : List Char)
    (h : ∀ c, front.head? = some c → Text.isBlank c = false) :
    Text.trim (front ++ '/' :: back) = front ++ '/' :: back.rdropWhile Text.isBlank := by
  have hfront : (front ++ '/' :: back).dropWhile Text.isBlank = front ++ '/' :: back := by
    cases front with
    | nil => simp [isBlank_slash]
    | cons c front => simp [h c rfl]
  have hstop : (back.reverse ++ '/' :: front.reverse).dropWhile Text.isBlank =
      back.reverse.dropWhile Text.isBlank ++ '/' :: front.reverse := by
    rw [List.dropWhile_append]
    split
    · rename_i hnil
      rw [List.isEmpty_iff.mp hnil]
      simp [isBlank_slash]
    · rfl
  rw [Text.trim, hfront]
  simp only [List.reverse_append, List.reverse_cons, List.append_assoc, List.cons_append,
    List.nil_append, hstop]
  simp [List.rdropWhile]

theorem slash_not_mem_shorten {name : String} (h : '/' ∉ name.toList) :
    '/' ∉ (shorten name).toList := by
  rw [shorten, String.toList_ofList]
  exact fun hmem => h ((List.rdropWhile_prefix _ _).subset hmem)

/-- A text from a root with a name after its first slash has no scheme and no authority. -/
theorem split_of_slash {cs : List Char} (h : cs.head? ≠ some '/') :
    split ('/' :: cs) = ⟨none, none, '/' :: cs⟩ := by
  have hscheme : splitScheme ('/' :: cs) = (none, '/' :: cs) := by
    have hdrop : ('/' :: cs).dropWhile isSchemeChar = '/' :: cs := by
      rw [List.dropWhile_cons_of_neg (by decide)]
    simp [splitScheme, hdrop]
  have hauthority : splitAuthority ('/' :: cs) = (none, '/' :: cs) := by
    cases cs with
    | nil => rfl
    | cons c cs =>
      have hc : c ≠ '/' := fun hc => h (by simp [hc])
      unfold splitAuthority
      split
      · rename_i heq
        cases heq
        exact absurd rfl hc
      · rfl
  simp [split, hscheme, hauthority]

/-- What is left of names from a root, once the blanks behind them are gone, starts with a single
slash and collapses to the settled names. -/
theorem spell_shorten {front : List String} {name : String}
    (h : ∀ n ∈ front ++ [name], Ordinary n) :
    ∃ rest, spell (front.map String.toList ++ [(shorten name).toList]) = '/' :: rest ∧
      rest.head? ≠ some '/' ∧
      collapse true (splitNames ('/' :: rest)) = settle (front ++ [name]) := by
  have hfront : ∀ n ∈ front, Ordinary n := fun n hn => h n (by simp [hn])
  have hname := h name (by simp)
  have hslash : ∀ cs ∈ front.map String.toList ++ [(shorten name).toList], '/' ∉ cs := by
    intro cs hcs
    rcases List.mem_append.mp hcs with hcs | hcs
    · exact slash_not_mem_toList hfront cs hcs
    · rw [List.mem_singleton.mp hcs]
      exact slash_not_mem_shorten hname.2.2.2
  obtain ⟨rest, hrest, hhead⟩ : ∃ rest,
      spell (front.map String.toList ++ [(shorten name).toList]) = '/' :: rest ∧
        rest.head? ≠ some '/' := by
    cases front with
    | nil =>
      refine ⟨(shorten name).toList, by simp, fun hhead => ?_⟩
      exact slash_not_mem_shorten hname.2.2.2 (List.mem_of_mem_head? hhead)
    | cons first front =>
      refine ⟨first.toList ++ spell (front.map String.toList ++ [(shorten name).toList]),
        by simp, ?_⟩
      have hfirst := hfront first (by simp)
      have hne : first.toList ≠ [] := fun hnil => hfirst.1 (String.toList_eq_nil_iff.mp hnil)
      intro hhead
      rw [List.head?_append_of_ne_nil _ hne] at hhead
      exact hfirst.2.2.2 (List.mem_of_mem_head? hhead)
  refine ⟨rest, hrest, hhead, ?_⟩
  have hpieces : splitNames ('/' :: rest) = "" :: (front ++ [shorten name]) := by
    rw [splitNames, ← hrest, splitOn_spell hslash]
    simp [Function.comp_def]
  have hskip : collapse true ("" :: (front ++ [shorten name])) =
      collapse true (front ++ [shorten name]) := rfl
  rw [hpieces, hskip, settle_concat]

theorem toList_rootText_concat (front : List String) (name : String) :
    (rootText (front ++ [name])).toList =
      spell (front.map String.toList) ++ '/' :: name.toList := by
  rw [toList_rootText (by simp)]
  simp [spell_append]

/-- Names written out from a root are read as the settled names. -/
theorem toPath_rootText {names : List String} (h : ∀ n ∈ names, Ordinary n) :
    (split (Text.trim (rootText names).toList)).toPath = ⟨{}, settle names, true⟩ := by
  rcases List.eq_nil_or_concat' names with rfl | ⟨front, name, rfl⟩
  · decide +kernel
  obtain ⟨rest, hrest, hhead, hcollapse⟩ := spell_shorten h
  have htrim : Text.trim (rootText (front ++ [name])).toList = '/' :: rest := by
    rw [toList_rootText_concat, trim_append_slash, ← hrest]
    · simp [spell_append, shorten]
    · cases front <;> simp [isBlank_slash]
  rw [htrim, split_of_slash hhead]
  simp [Parts.toPath, Parts.isAbsolute, Parts.location, hcollapse]

/-- What names written out from a root are read as, if they are not refused. -/
theorem eq_of_parse_rootText {names : List String} (h : ∀ n ∈ names, Ordinary n) {p : Path}
    (hp : parse (rootText names) = .ok p) : p = ⟨{}, settle names, true⟩ := by
  unfold parse at hp
  split at hp
  · cases hp
  · dsimp only at hp
    rw [toPath_rootText h] at hp
    split at hp
    · cases hp
    split at hp
    · cases hp
    · cases hp
      rfl

theorem eq_of_read_rootText {names : List String} (h : ∀ n ∈ names, Ordinary n) {p : Path}
    (hp : read (rootText names) = .ok p) : p = ⟨{}, settle names, true⟩ :=
  eq_of_parse_rootText h (mapError_eq_ok.mp hp)

/-! ## Names with blanks at the end -/

/-- A name that ends in a blank. -/
def EndsBlank (name : String) : Prop := name.toList.getLast?.any Text.isBlank = true

instance (name : String) : Decidable (EndsBlank name) := by
  unfold EndsBlank; infer_instance

theorem shorten_eq_self {name : String} (h : ¬EndsBlank name) : shorten name = name := by
  have hself : name.toList.rdropWhile Text.isBlank = name.toList := by
    rw [List.rdropWhile_eq_self_iff]
    intro hne hblank
    exact h (by simpa [EndsBlank, List.getLast?_eq_some_getLast hne] using hblank)
  rw [shorten, hself, String.ofList_toList]

/-- How far the directory of a path with this last name lies above it, once the path is read
again. -/
def rise (name : String) : ℕ :=
  if shorten name = "" ∨ shorten name = "." then 2 else if shorten name = ".." then 3 else 1

theorem rise_pos (name : String) : 0 < rise name := by
  unfold rise
  split
  · omega
  · split <;> omega

/-- The names of the directory that holds a path, once the path is read again. -/
def above (names : List String) : List String := names.rdrop (names.getLast?.elim 0 rise)

theorem above_nil : above [] = [] := rfl

theorem above_concat (names : List String) (name : String) :
    above (names ++ [name]) = (names ++ [name]).rdrop (rise name) := by
  simp [above]

theorem settle_nil : settle [] = [] := rfl

theorem settle_of_not_endsBlank {names : List String} (h : ∀ n ∈ names, Ordinary n)
    (hb : ∀ n ∈ names, ¬EndsBlank n) : settle names = names := by
  rcases List.eq_nil_or_concat' names with rfl | ⟨front, name, rfl⟩
  · rfl
  · rw [settle_concat, shorten_eq_self (hb name (by simp)), collapse_ordinary h]

/-- The settled names, as far as the last name decides. -/
theorem settle_cases {front : List String} {name : String} (h : ∀ n ∈ front ++ [name], Ordinary n) :
    (rise name = 1 ∧ Ordinary (shorten name) ∧ settle (front ++ [name]) = front ++ [shorten name]) ∨
    (rise name = 2 ∧ settle (front ++ [name]) = front) ∨
    (rise name = 3 ∧ settle (front ++ [name]) = front.dropLast) := by
  have hfront : ∀ n ∈ front, Ordinary n := fun n hn => h n (by simp [hn])
  have hstack : front.foldl (push true) [] = front.reverse := by
    simpa using foldl_push_ordinary hfront true []
  have hcollapse : settle (front ++ [name]) = (push true front.reverse (shorten name)).reverse := by
    rw [settle_concat, collapse, List.foldl_append, hstack]
    rfl
  by_cases hskip : shorten name = "" ∨ shorten name = "."
  · refine .inr (.inl ⟨by simp [rise, hskip], ?_⟩)
    rw [hcollapse, push_of_skipped hskip, List.reverse_reverse]
  by_cases hdots : shorten name = ".."
  · refine .inr (.inr ⟨by simp [rise, hdots], ?_⟩)
    rw [hcollapse, hdots, push_dots (by simpa using hfront)]
    simp [List.drop_one]
  · have hname : Ordinary (shorten name) :=
      ⟨fun h => hskip (.inl h), fun h => hskip (.inr h), hdots,
        slash_not_mem_shorten (h name (by simp)).2.2.2⟩
    refine .inl ⟨by rw [rise, if_neg hskip, if_neg hdots], hname, ?_⟩
    rw [hcollapse, push_ordinary hname]
    simp

/-- Names that lead to a directory itself or further down, from whichever directory they are
followed: there is one at least, and they are not a single one that is read as two dots. -/
structure Inward (names : List String) : Prop where
  ordinary : ∀ n ∈ names, Ordinary n
  ne : names ≠ []
  inside : ∀ name, names = [name] → shorten name ≠ ".."

/-- Names that lead on from a directory are settled apart from those of the directory. -/
theorem Inward.settle_append {front names : List String} (h : Inward names)
    (hf : ∀ n ∈ front, Ordinary n) : settle (front ++ names) = front ++ settle names := by
  obtain ⟨init, name, rfl⟩ := (List.eq_nil_or_concat' names).resolve_left h.ne
  have hall : ∀ n ∈ (front ++ init) ++ [name], Ordinary n := by
    rw [List.append_assoc]
    exact List.forall_mem_append.mpr ⟨hf, h.ordinary⟩
  rw [← List.append_assoc]
  -- What the last name is read as decides on either side.
  rcases settle_cases hall with ⟨hr, -, hs⟩ | ⟨hr, hs⟩ | ⟨hr, hs⟩ <;>
    rcases settle_cases h.ordinary with ⟨hr', -, hs'⟩ | ⟨hr', hs'⟩ | ⟨hr', hs'⟩ <;>
    first | omega | rw [hs, hs']
  · rw [List.append_assoc]
  · have hinit : init ≠ [] := by
      rintro rfl
      have hdots : shorten name = ".." := by
        by_contra hno
        rw [rise, if_neg hno] at hr
        split at hr <;> omega
      exact h.inside name rfl hdots
    rw [List.dropLast_append_of_ne_nil hinit]

theorem settle_ordinary {names : List String} (h : ∀ n ∈ names, Ordinary n) :
    ∀ n ∈ settle names, Ordinary n := by
  rcases List.eq_nil_or_concat' names with rfl | ⟨front, name, rfl⟩
  · simp [settle_nil]
  intro n hn
  rcases settle_cases h with ⟨-, hname, hs⟩ | ⟨-, hs⟩ | ⟨-, hs⟩ <;> rw [hs] at hn
  · rcases List.mem_append.mp hn with hn | hn
    · exact h n (by simp [hn])
    · rw [List.mem_singleton.mp hn]
      exact hname
  · exact h n (by simp [hn])
  · exact h n (List.mem_append_left _ ((List.dropLast_subset _) hn))

/-- The directory of the settled names lies above the names as written. -/
theorem dropLast_settle {names : List String} (h : ∀ n ∈ names, Ordinary n) :
    (settle names).dropLast = above names := by
  rcases List.eq_nil_or_concat' names with rfl | ⟨front, name, rfl⟩
  · rfl
  rw [above_concat]
  rcases settle_cases h with ⟨hr, -, hs⟩ | ⟨hr, hs⟩ | ⟨hr, hs⟩ <;> rw [hs, hr]
  · rw [List.dropLast_concat, List.rdrop_concat_succ, List.rdrop_zero]
  · rw [List.rdrop_concat_succ, List.rdrop, List.dropLast_eq_take]
  · rw [List.rdrop_concat_succ, List.rdrop, List.dropLast_eq_take, List.dropLast_eq_take,
      List.take_take, List.length_take]
    congr 1
    omega

end Path

end MountSpace
