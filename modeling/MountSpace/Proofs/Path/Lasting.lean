import MountSpace.Proofs.Path.Reading

/-!
# Paths that last

Not every path is read again from its own text.  The text may be longer than an address may be,
although the text it was read from was not, and blanks at its ends belong to names but are trimmed
when the text is read.  Apart from that, writing a path and reading it again gives it back.

## Main definitions

* `Location.Plain` — a location as it stands in a path that was read.
* `Path.Clean` — names that may stand in an address.
* `Path.Lasting` — the paths that are read again from their own texts.

Main statement: `Path.read_text_iff`.
-/

namespace MountSpace

namespace Path

/-! ## Reading -/

/-- A character that no address may hold. -/
def isRefused (c : Char) : Bool := c.toNat == 0 || isRefusedControl c

theorem textFault?_eq_none_iff {s : String} :
    textFault? s = none ↔ (∀ c ∈ s.toList, isRefused c = false) ∧ s.length ≤ maxTextLength := by
  unfold textFault? isRefused
  split
  · rename_i hnul
    refine iff_of_false (by simp) ?_
    rintro ⟨hc, -⟩
    obtain ⟨c, hmem, hzero⟩ := List.any_eq_true.mp hnul
    have := hc c hmem
    simp [hzero] at this
  rename_i hnul
  split
  · rename_i c hfind
    refine iff_of_false (by simp) ?_
    rintro ⟨hc, -⟩
    have := hc c (List.mem_of_find?_eq_some hfind)
    simp [List.find?_some hfind] at this
  rename_i hfind
  have hclean : ∀ c ∈ s.toList, (c.toNat == 0 || isRefusedControl c) = false := by
    intro c hmem
    rw [Bool.or_eq_false_iff]
    constructor
    · by_contra hzero
      exact hnul (List.any_eq_true.mpr ⟨c, hmem, by simpa using hzero⟩)
    · simpa using List.find?_eq_none.mp hfind c hmem
  split
  · rename_i hlong
    exact iff_of_false (by simp) fun h => absurd h.2 (by omega)
  · rename_i hshort
    exact iff_of_true rfl ⟨hclean, by omega⟩

theorem parse_eq_ok_iff {raw : String} {p : Path} : parse raw = .ok p ↔
    textFault? raw = none ∧ (split (Text.trim raw.toList)).toPath = p ∧
      (∀ n ∈ p.segments, n.length ≤ maxNameLength) ∧ (p.absolute = false → p.segments ≠ []) := by
  unfold parse
  cases textFault? raw with
  | some fault => simp
  | none =>
    dsimp only
    generalize (split (Text.trim raw.toList)).toPath = q
    split
    · rename_i hlong
      refine iff_of_false (by simp) ?_
      rintro ⟨-, rfl, hshort, -⟩
      obtain ⟨n, hn, hlen⟩ := List.any_eq_true.mp hlong
      have := hshort n hn
      simp at hlen
      omega
    rename_i hlong
    split
    · rename_i hempty
      refine iff_of_false (by simp) ?_
      rintro ⟨-, rfl, -, hne⟩
      simp only [Bool.and_eq_true, List.isEmpty_iff, Bool.not_eq_true'] at hempty
      exact hne hempty.2 hempty.1
    · rename_i hempty
      constructor
      · rintro h
        obtain rfl := Except.ok.inj h
        refine ⟨rfl, rfl, fun n hn => ?_, fun hrel hnil => hempty ?_⟩
        · by_contra hlen
          exact hlong (List.any_eq_true.mpr ⟨n, hn, by simpa using hlen⟩)
        · simp [hnil, hrel]
      · rintro ⟨-, rfl, -⟩
        rfl

end Path

/-! ## What was read -/

/-- A location as it stands in a path that was read: the scheme starts with a letter and holds no
capitals, and the authority is there if it is named. -/
structure Location.Plain (l : Location) : Prop where
  scheme : ∀ s, l.scheme = some s → (∃ c, s.toList.head? = some c ∧ c.isAlpha = true) ∧
    ∀ c ∈ s.toList, Path.isSchemeChar c = true ∧ c.toLower = c ∧ Path.isRefused c = false
  authority : ∀ a, l.authority = some a → a ≠ "" ∧ '/' ∉ a.toList ∧
    ∀ c ∈ a.toList, Path.isRefused c = false

namespace Path

/-- Names that may stand in an address. -/
def Clean (names : List String) : Prop :=
  ∀ n ∈ names, n.length ≤ maxNameLength ∧ ∀ c ∈ n.toList, isRefused c = false

theorem mem_of_mem_trim {c : Char} {cs : List Char} (h : c ∈ Text.trim cs) : c ∈ cs := by
  unfold Text.trim at h
  rw [List.mem_reverse] at h
  exact (List.dropWhile_suffix _).subset
    (List.mem_reverse.mp ((List.dropWhile_suffix _).subset h))

theorem mem_intercalate {c : Char} {sep piece : List Char} {pieces : List (List Char)}
    (hp : piece ∈ pieces) (hc : c ∈ piece) : c ∈ sep.intercalate pieces := by
  induction pieces with
  | nil => cases hp
  | cons first rest ih =>
    cases rest with
    | nil =>
      rw [List.mem_singleton.mp hp] at hc
      simpa using hc
    | cons second rest =>
      rw [List.intercalate_cons_cons]
      rcases List.mem_cons.mp hp with rfl | hp
      · simp [hc]
      · exact List.mem_append_right _ (ih hp)

theorem mem_of_mem_splitNames {c : Char} {cs : List Char} {n : String} (hn : n ∈ splitNames cs)
    (hc : c ∈ n.toList) : c ∈ cs := by
  obtain ⟨piece, hpiece, rfl⟩ := List.mem_map.mp hn
  rw [String.toList_ofList] at hc
  have hjoin : ['/'].intercalate (cs.splitOn '/') = cs := List.intercalate_splitOn '/'
  exact hjoin ▸ mem_intercalate hpiece hc

theorem mem_of_mem_foldl_push {absolute : Bool} {names stack : List String} {n : String}
    (h : n ∈ names.foldl (push absolute) stack) : n ∈ stack ∨ n ∈ names := by
  induction names generalizing stack with
  | nil => exact .inl h
  | cons name names ih =>
    rcases ih h with hpush | hrest
    · have hmem : n = name ∨ n ∈ stack := by
        unfold push at hpush
        split at hpush
        · exact .inr hpush
        split at hpush
        · split at hpush
          · split at hpush
            · exact .inr (List.mem_cons_of_mem _ hpush)
            split at hpush
            · exact .inr hpush
            · exact List.mem_cons.mp hpush
          · split at hpush
            · exact .inr hpush
            · exact List.mem_cons.mp hpush
        · exact List.mem_cons.mp hpush
      rcases hmem with rfl | hmem
      · exact .inr List.mem_cons_self
      · exact .inl hmem
    · exact .inr (List.mem_cons_of_mem _ hrest)

theorem mem_of_mem_collapse {absolute : Bool} {names : List String} {n : String}
    (h : n ∈ collapse absolute names) : n ∈ names := by
  rcases mem_of_mem_foldl_push (List.mem_reverse.mp h) with hnil | h
  · cases hnil
  · exact h

/-- A scheme is cut off in front of two slashes, or nothing is. -/
theorem splitScheme_cases (cs : List Char) :
    splitScheme cs = (none, cs) ∨ ∃ s rest, splitScheme cs = (some s, '/' :: '/' :: rest) ∧
      cs = s ++ ':' :: '/' :: '/' :: rest ∧ (∃ c, s.head? = some c ∧ c.isAlpha = true) ∧
      ∀ c ∈ s, isSchemeChar c = true := by
  unfold splitScheme
  split
  swap
  · exact .inl rfl
  rename_i c rest hhead hdrop
  split
  swap
  · exact .inl rfl
  rename_i halpha
  refine .inr ⟨_, rest, rfl, ?_, ⟨c, ?_, halpha⟩, fun d hd => List.mem_takeWhile_imp hd⟩
  · rw [← hdrop, List.takeWhile_append_dropWhile]
  · cases cs with
    | nil => cases hhead
    | cons first cs =>
      cases hhead
      rw [List.takeWhile_cons_of_pos (by simp [isSchemeChar, Char.isAlphanum, halpha])]
      rfl

/-- An authority is cut off after two slashes, or nothing is. -/
theorem splitAuthority_cases (cs : List Char) :
    splitAuthority cs = (none, cs) ∨ ∃ a body, splitAuthority cs = (some a, body) ∧
      cs = '/' :: '/' :: (a ++ body) ∧ '/' ∉ a := by
  unfold splitAuthority
  split
  · rename_i rest
    refine .inr ⟨_, _, rfl, by rw [List.takeWhile_append_dropWhile], fun hmem => ?_⟩
    simpa using List.mem_takeWhile_imp hmem
  · exact .inl rfl

theorem split_eq {cs rest body : List Char} {scheme authority : Option (List Char)}
    (hs : splitScheme cs = (scheme, rest)) (ha : splitAuthority rest = (authority, body)) :
    split cs = ⟨scheme, authority, body⟩ := by
  simp only [split, hs, ha]

/-- What a text is cut into stands in it. -/
theorem mem_of_mem_split (c : Char) (cs : List Char) :
    (∀ s, (split cs).scheme = some s → c ∈ s → c ∈ cs) ∧
      (∀ a, (split cs).authority = some a → c ∈ a → c ∈ cs) ∧
      (c ∈ (split cs).body → c ∈ cs) := by
  have hrest : ∀ rest, (∀ a body, splitAuthority rest = (a, body) →
      (∀ found, a = some found → c ∈ found → c ∈ rest) ∧ (c ∈ body → c ∈ rest)) := by
    intro rest a body h
    rcases splitAuthority_cases rest with hnone | ⟨found, tail, hsome, rfl, -⟩
    · rw [hnone] at h
      cases h
      exact ⟨fun found hf => (nomatch hf), id⟩
    · rw [hsome] at h
      cases h
      refine ⟨fun other ho hc => ?_, fun hc => by simp [hc]⟩
      cases ho
      simp [hc]
  unfold split
  rcases splitScheme_cases cs with hnone | ⟨s, rest, hsome, rfl, -, -⟩
  · rw [hnone]
    obtain ⟨ha, hb⟩ := hrest cs _ _ rfl
    exact ⟨fun s hs => (nomatch hs), ha, hb⟩
  · rw [hsome]
    obtain ⟨ha, hb⟩ := hrest ('/' :: '/' :: rest) _ _ rfl
    refine ⟨fun s' hs' hc => ?_, fun a hauth hc => ?_, fun hc => ?_⟩
    · cases hs'
      simp [hc]
    · exact List.mem_append_right _ (List.mem_cons_of_mem _ (ha a hauth hc))
    · exact List.mem_append_right _ (List.mem_cons_of_mem _ (hb hc))

variable {raw : String} {p : Path}

theorem mem_of_mem_trim_split {c : Char} (h : parse raw = .ok p) :
    (∀ s, (split (Text.trim raw.toList)).scheme = some s → c ∈ s → isRefused c = false) ∧
      (∀ a, (split (Text.trim raw.toList)).authority = some a → c ∈ a → isRefused c = false) ∧
      (c ∈ (split (Text.trim raw.toList)).body → isRefused c = false) := by
  obtain ⟨hfault, -⟩ := parse_eq_ok_iff.mp h
  have hclean := (textFault?_eq_none_iff.mp hfault).1
  obtain ⟨hs, ha, hb⟩ := mem_of_mem_split c (Text.trim raw.toList)
  exact ⟨fun s hsome hc => hclean c (mem_of_mem_trim (hs s hsome hc)),
    fun a hsome hc => hclean c (mem_of_mem_trim (ha a hsome hc)),
    fun hc => hclean c (mem_of_mem_trim (hb hc))⟩

theorem Parts.absolute_toPath (parts : Parts) : parts.toPath.absolute = parts.isAbsolute := rfl

theorem Parts.segments_toPath (parts : Parts) :
    parts.toPath.segments = collapse parts.isAbsolute (splitNames parts.body) := rfl

theorem clean_of_parse (h : parse raw = .ok p) : Clean p.segments := by
  obtain ⟨-, hp, hshort, -⟩ := parse_eq_ok_iff.mp h
  intro n hn
  refine ⟨hshort n hn, fun c hc => ?_⟩
  rw [← hp, Parts.segments_toPath] at hn
  exact (mem_of_mem_trim_split h).2.2 (mem_of_mem_splitNames (mem_of_mem_collapse hn) hc)

theorem ascii_of_isSchemeChar {c : Char} (h : isSchemeChar c = true) : c.toNat < 128 := by
  unfold isSchemeChar Char.isAlphanum Char.isAlpha Char.isUpper Char.isLower Char.isDigit at h
  simp only [Bool.or_eq_true, Bool.and_eq_true, decide_eq_true_eq, beq_iff_eq,
    UInt32.le_iff_toNat_le] at h
  have hval : c.toNat = c.val.toNat := rfl
  have hZ : 'Z'.val.toNat = 90 := rfl
  have hz : 'z'.val.toNat = 122 := rfl
  have h9 : '9'.val.toNat = 57 := rfl
  rcases h with ((((⟨-, h⟩ | ⟨-, h⟩) | ⟨-, h⟩) | rfl) | rfl) | rfl
  · omega
  · omega
  · omega
  all_goals decide

/-- The characters of schemes are letters, digits and signs, also in lower case. -/
theorem of_isSchemeChar {c : Char} (h : isSchemeChar c = true) :
    isSchemeChar c.toLower = true ∧ c.toLower.toLower = c.toLower ∧
      (c.isAlpha = true → c.toLower.isAlpha = true) ∧ isRefused c.toLower = false ∧
      Text.isBlank c = false := by
  have hall : ∀ n < 128, isSchemeChar (Char.ofNat n) = true →
      isSchemeChar (Char.ofNat n).toLower = true ∧
        (Char.ofNat n).toLower.toLower = (Char.ofNat n).toLower ∧
        ((Char.ofNat n).isAlpha = true → (Char.ofNat n).toLower.isAlpha = true) ∧
        isRefused (Char.ofNat n).toLower = false ∧ Text.isBlank (Char.ofNat n) = false := by
    decide +kernel
  have hc := hall c.toNat (ascii_of_isSchemeChar h)
  rw [Char.ofNat_toNat] at hc
  exact hc h

theorem plain_of_parse (h : parse raw = .ok p) : p.location.Plain := by
  have hclean := fun c => mem_of_mem_trim_split (c := c) h
  obtain ⟨-, rfl, -⟩ := parse_eq_ok_iff.mp h
  generalize hcs : Text.trim raw.toList = cs at hclean ⊢
  constructor
  · intro s hs
    rcases splitScheme_cases cs with hnone | ⟨scheme, rest, hsome, -, ⟨c, hhead, halpha⟩, hall⟩
    · simp [Parts.toPath, Parts.location, split, hnone] at hs
    obtain rfl : String.ofList (scheme.map Char.toLower) = s := by
      simpa [Parts.toPath, Parts.location, split, hsome] using hs
    rw [String.toList_ofList]
    refine ⟨⟨c.toLower, by simp [hhead], ?_⟩, fun d hd => ?_⟩
    · exact (of_isSchemeChar (hall c (List.mem_of_mem_head? hhead))).2.2.1 halpha
    · obtain ⟨e, he, rfl⟩ := List.mem_map.mp hd
      obtain ⟨hscheme, htwice, -, hrefused, -⟩ := of_isSchemeChar (hall e he)
      exact ⟨hscheme, htwice, hrefused⟩
  · intro a ha
    obtain ⟨found, hfound, hne, rfl⟩ : ∃ found, (split cs).authority = some found ∧ found ≠ [] ∧
        String.ofList found = a := by
      have hloc : (split cs).toPath.location.authority = some a := ha
      unfold Parts.toPath Parts.location at hloc
      dsimp only at hloc
      split at hloc
      · cases hloc
      · cases hloc
      · rename_i found hne hfound
        exact ⟨found, hfound, hne, Option.some.inj hloc⟩
    have hslash : '/' ∉ found := by
      rcases hrest : splitScheme cs with ⟨scheme, rest⟩
      rcases splitAuthority_cases rest with hnone | ⟨a, body, hsome, -, hslash⟩
      · rw [split_eq hrest hnone] at hfound
        cases hfound
      · rw [split_eq hrest hsome] at hfound
        cases hfound
        exact hslash
    refine ⟨by simpa using hne, by simpa using hslash, fun c hc => ?_⟩
    rw [String.toList_ofList] at hc
    exact (hclean c).2.1 found hfound hc

/-! ## Writing and reading again -/

/-- A scheme in front of two slashes is cut off. -/
theorem splitScheme_append {s : List Char} {c : Char} (hhead : s.head? = some c)
    (halpha : c.isAlpha = true) (hs : ∀ d ∈ s, isSchemeChar d = true) (rest : List Char) :
    splitScheme (s ++ ':' :: '/' :: '/' :: rest) = (some s, '/' :: '/' :: rest) := by
  have hfirst : (s ++ ':' :: '/' :: '/' :: rest).head? = some c := by
    rw [List.head?_append, hhead]
    rfl
  have hdrop : (s ++ ':' :: '/' :: '/' :: rest).dropWhile isSchemeChar =
      ':' :: '/' :: '/' :: rest := by
    rw [List.dropWhile_append_of_pos hs, List.dropWhile_cons_of_neg (by decide)]
  have htake : (s ++ ':' :: '/' :: '/' :: rest).takeWhile isSchemeChar = s := by
    rw [List.takeWhile_append_of_pos hs, List.takeWhile_cons_of_neg (by decide), List.append_nil]
  unfold splitScheme
  rw [hfirst, hdrop, htake]
  simp [halpha]

/-- No scheme is cut off in front of a slash. -/
theorem splitScheme_slash (rest : List Char) : splitScheme ('/' :: rest) = (none, '/' :: rest) := by
  unfold splitScheme
  rw [List.dropWhile_cons_of_neg (by decide)]
  simp

/-- An authority after two slashes is cut off. -/
theorem splitAuthority_append {a : List Char} (ha : '/' ∉ a) (rest : List Char) :
    splitAuthority ('/' :: '/' :: (a ++ '/' :: rest)) = (some a, '/' :: rest) := by
  have hchars : ∀ d ∈ a, (d != '/') = true := by
    intro d hd
    have hne : d ≠ '/' := fun heq => ha (heq ▸ hd)
    simpa using hne
  have htake : (a ++ '/' :: rest).takeWhile (· != '/') = a := by
    rw [List.takeWhile_append_of_pos hchars, List.takeWhile_cons_of_neg (by decide),
      List.append_nil]
  have hdrop : (a ++ '/' :: rest).dropWhile (· != '/') = '/' :: rest := by
    rw [List.dropWhile_append_of_pos hchars, List.dropWhile_cons_of_neg (by decide)]
  change (some ((a ++ '/' :: rest).takeWhile (· != '/')),
    (a ++ '/' :: rest).dropWhile (· != '/')) = _
  rw [htake, hdrop]

theorem lower_scheme {l : Location} (hl : l.Plain) {s : String} (hs : l.scheme = some s) :
    String.ofList (s.toList.map Char.toLower) = s := by
  have hsame : s.toList.map Char.toLower = s.toList :=
    (List.map_congr_left fun d hd => ((hl.scheme s hs).2 d hd).2.1).trans (List.map_id' _)
  rw [hsame, String.ofList_toList]

/-- A location is read again in front of a path from its root. -/
theorem toPath_split {l : Location} (hl : l.Plain) {rest : List Char}
    (hrest : l.isStated = false → rest.head? ≠ some '/') :
    (split (l.text.toList ++ '/' :: rest)).toPath =
      ⟨l, collapse true (splitNames ('/' :: rest)), true⟩ := by
  obtain ⟨scheme, authority⟩ := l
  have hauthority : ∀ a, authority = some a → (∃ c cs, a.toList = c :: cs) ∧ '/' ∉ a.toList := by
    intro a ha
    obtain ⟨hne, hslash, -⟩ := hl.authority a ha
    exact ⟨List.exists_cons_of_ne_nil fun hnil => hne (String.toList_eq_nil_iff.mp hnil), hslash⟩
  cases scheme with
  | none =>
    cases authority with
    | none =>
      have htext : (Location.text ⟨none, none⟩).toList = [] := rfl
      rw [htext, List.nil_append, split_of_slash (hrest rfl)]
      rfl
    | some a =>
      obtain ⟨⟨c, cs, hcons⟩, hslash⟩ := hauthority a rfl
      have htext : (Location.text ⟨none, some a⟩).toList = '/' :: '/' :: a.toList := by
        simp [Location.text]
      rw [htext, List.cons_append, List.cons_append,
        split_eq (splitScheme_slash _) (splitAuthority_append hslash rest)]
      simp [Parts.toPath, Parts.location, Parts.isAbsolute, hcons, ← String.toList_inj]
  | some s =>
    obtain ⟨⟨c, hhead, halpha⟩, hall⟩ := hl.scheme s rfl
    have hcut := splitScheme_append hhead halpha fun d hd => (hall d hd).1
    have htext : (Location.text ⟨some s, authority⟩).toList =
        s.toList ++ ':' :: '/' :: '/' :: (authority.getD "").toList := by
      simp [Location.text]
    rw [htext, List.append_assoc]
    cases authority with
    | none =>
      have hempty : splitAuthority ('/' :: '/' :: '/' :: rest) = (some [], '/' :: rest) :=
        splitAuthority_append List.not_mem_nil rest
      simp only [Option.getD_none, List.cons_append, String.toList_empty, List.nil_append]
      rw [split_eq (hcut _) hempty]
      simp [Parts.toPath, Parts.location, Parts.isAbsolute, lower_scheme hl rfl]
    | some a =>
      obtain ⟨⟨c, cs, hcons⟩, hslash⟩ := hauthority a rfl
      simp only [Option.getD_some, List.cons_append]
      rw [split_eq (hcut _) (splitAuthority_append hslash rest)]
      simp [Parts.toPath, Parts.location, Parts.isAbsolute, lower_scheme hl rfl, hcons,
        ← String.toList_inj]

theorem isBlank_head_location {l : Location} (hl : l.Plain) {c : Char}
    (h : l.text.toList.head? = some c) : Text.isBlank c = false := by
  obtain ⟨scheme, authority⟩ := l
  cases scheme with
  | some s =>
    obtain ⟨⟨first, hhead, -⟩, hall⟩ := hl.scheme s rfl
    have hne : s.toList ≠ [] := by
      intro hnil
      simp [hnil] at hhead
    have hfirst : s.toList.head? = some c := by
      simpa [Location.text, List.head?_append_of_ne_nil _ hne] using h
    exact (of_isSchemeChar (hall c (List.mem_of_mem_head? hfirst)).1).2.2.2.2
  | none =>
    cases authority with
    | some a =>
      obtain rfl : '/' = c := by simpa [Location.text] using h
      exact isBlank_slash
    | none => simp [Location.text] at h

/-- A path from a root is read again with its last name settled. -/
theorem toPath_text (hp : p.Normal) (ha : p.absolute = true) (hl : p.location.Plain) :
    (split (Text.trim p.text.toList)).toPath = ⟨p.location, settle p.segments, true⟩ := by
  obtain ⟨l, names, absolute⟩ := p
  obtain rfl : absolute = true := ha
  have hnames := hp.ordinary rfl
  have htext : (⟨l, names, true⟩ : Path).text.toList =
      l.text.toList ++ (rootText names).toList := by
    simp [text, rootText, localText]
  have hblank : ∀ (front : List (List Char)) c, (l.text.toList ++ spell front).head? = some c →
      Text.isBlank c = false := by
    intro front c hc
    rw [List.head?_append] at hc
    cases hhead : l.text.toList.head? with
    | some d =>
      rw [hhead] at hc
      cases hc
      exact isBlank_head_location hl hhead
    | none =>
      rw [hhead] at hc
      cases front with
      | nil => cases hc
      | cons first front =>
        cases hc
        exact isBlank_slash
  rw [htext]
  rcases List.eq_nil_or_concat' names with rfl | ⟨front, name, rfl⟩
  · have htrim := trim_append_slash [] (hblank [])
    simp only [spell_nil, List.append_nil, List.rdropWhile_nil] at htrim
    have hroot : (rootText []).toList = ['/'] := rfl
    rw [hroot, htrim, toPath_split hl fun _ => by simp]
    rfl
  · obtain ⟨rest, hrest, hhead, hcollapse⟩ := spell_shorten hnames
    have hend : spell (front.map String.toList) ++ '/' :: name.toList.rdropWhile Text.isBlank =
        '/' :: rest := by
      rw [← hrest]
      simp [spell_append, shorten]
    rw [toList_rootText_concat, ← List.append_assoc, trim_append_slash _ (hblank _),
      List.append_assoc, hend, toPath_split hl fun _ => hhead, hcollapse]

/-- Names are settled exactly when the last one has no blank at its end. -/
theorem settle_eq_self_iff {names : List String} (h : ∀ n ∈ names, Ordinary n) :
    settle names = names ↔ ∀ n, names.getLast? = some n → ¬EndsBlank n := by
  rcases List.eq_nil_or_concat' names with rfl | ⟨front, name, rfl⟩
  · simp [settle_nil]
  simp only [List.getLast?_concat, Option.some.injEq, forall_eq']
  constructor
  · intro heq hblank
    have hname : shorten name ≠ name := by
      intro hsame
      have hlist := congrArg String.toList hsame
      rw [shorten, String.toList_ofList, List.rdropWhile_eq_self_iff] at hlist
      have hne : name.toList ≠ [] := by
        intro hnil
        simp [EndsBlank, hnil] at hblank
      exact hlist hne (by simpa [EndsBlank, List.getLast?_eq_some_getLast hne] using hblank)
    rcases settle_cases h with ⟨-, -, hs⟩ | ⟨-, hs⟩ | ⟨-, hs⟩
    · exact hname (by simpa using hs.symm.trans heq)
    · have := congrArg List.length (hs.symm.trans heq)
      simp at this
    · have := congrArg List.length (hs.symm.trans heq)
      simp at this
  · intro hlast
    rw [settle_concat, shorten_eq_self hlast, collapse_ordinary h]

theorem rootText_prefix_append (front more : List String) :
    (rootText front).toList <+: (rootText (front ++ more)).toList := by
  by_cases hfront : front = []
  · subst hfront
    by_cases hmore : more = []
    · subst hmore
      exact List.prefix_rfl
    · obtain ⟨name, rest, rfl⟩ := List.exists_cons_of_ne_nil hmore
      have hslash : (rootText []).toList = ['/'] := rfl
      rw [List.nil_append, hslash, toList_rootText (by simp), List.map_cons, spell_cons]
      exact List.prefix_append ['/'] _
  · rw [toList_rootText hfront, toList_rootText (by simp [hfront]), List.map_append, spell_append]
    exact List.prefix_append _ _

/-- Settling leaves a part of the text, and parts of the names. -/
theorem settle_prefix_self {names : List String} (h : ∀ n ∈ names, Ordinary n) :
    (rootText (settle names)).toList <+: (rootText names).toList ∧
      ∀ n ∈ settle names, ∃ m ∈ names, n.toList <+: m.toList := by
  rcases List.eq_nil_or_concat' names with rfl | ⟨front, name, rfl⟩
  · simp [settle_nil]
  have hshort : (shorten name).toList <+: name.toList := by
    rw [shorten, String.toList_ofList]
    exact List.rdropWhile_prefix _ _
  rcases settle_cases h with ⟨-, -, hs⟩ | ⟨-, hs⟩ | ⟨-, hs⟩ <;> rw [hs]
  · refine ⟨?_, fun n hn => ?_⟩
    · rw [toList_rootText_concat, toList_rootText_concat]
      exact (List.prefix_append_right_inj _).mpr ((List.prefix_cons_inj _).mpr hshort)
    · rcases List.mem_append.mp hn with hn | hn
      · exact ⟨n, by simp [hn], List.prefix_rfl⟩
      · rw [List.mem_singleton.mp hn]
        exact ⟨name, by simp, hshort⟩
  · exact ⟨rootText_prefix_append _ _, fun n hn => ⟨n, by simp [hn], List.prefix_rfl⟩⟩
  · refine ⟨?_, fun n hn => ⟨n, by simp [List.dropLast_subset _ hn], List.prefix_rfl⟩⟩
    have hall : front.dropLast ++ (front.getLast?.toList ++ [name]) = front ++ [name] := by
      rcases List.eq_nil_or_concat' front with rfl | ⟨front, last, rfl⟩ <;> simp
    rw [← hall]
    exact rootText_prefix_append _ _

/-- A path from a root can be read if its text and its names go no further than those of a path that
can. -/
theorem read_of_prefix {names other : List String} (h : ∀ n ∈ names, Ordinary n)
    (ho : ∀ n ∈ other, Ordinary n) (hp : read (rootText names) = .ok p)
    (htext : (rootText other).toList <+: (rootText names).toList)
    (hnames : ∀ n ∈ settle other, ∃ m ∈ settle names, n.toList <+: m.toList) :
    read (rootText other) = .ok ⟨{}, settle other, true⟩ := by
  obtain ⟨hfault, -, hshort, -⟩ := parse_eq_ok_iff.mp (mapError_eq_ok.mp hp)
  obtain rfl := eq_of_read_rootText h hp
  obtain ⟨hchars, hlen⟩ := textFault?_eq_none_iff.mp hfault
  refine mapError_eq_ok.mpr (parse_eq_ok_iff.mpr
    ⟨textFault?_eq_none_iff.mpr ⟨fun c hc => hchars c (htext.subset hc), ?_⟩,
      toPath_rootText ho, fun n hn => ?_, fun hrel => (nomatch hrel)⟩)
  · have := htext.length_le
    simp only [String.length_toList] at this
    omega
  · obtain ⟨m, hm, hpre⟩ := hnames n hn
    have := hpre.length_le
    simp only [String.length_toList] at this
    have := hshort m hm
    omega

/-- What was read from a root can be read once more. -/
theorem read_settled {names : List String} (h : ∀ n ∈ names, Ordinary n)
    (hp : read (rootText names) = .ok p) :
    read (rootText p.segments) = .ok ⟨{}, settle p.segments, true⟩ := by
  obtain rfl := eq_of_read_rootText h hp
  exact read_of_prefix h (settle_ordinary h) hp (settle_prefix_self h).1
    (settle_prefix_self (settle_ordinary h)).2

/-! ## Relative paths -/

/-- A name that starts with a blank. -/
def StartsBlank (name : String) : Prop := name.toList.head?.any Text.isBlank = true

instance (name : String) : Decidable (StartsBlank name) :=
  inferInstanceAs (Decidable (name.toList.head?.any Text.isBlank = true))

theorem length_push (absolute : Bool) (stack : List String) (name : String) :
    push absolute stack name = name :: stack ∨
      (push absolute stack name).length ≤ stack.length := by
  unfold push
  split
  · exact .inr le_rfl
  split
  · split
    · split
      · exact .inr (by simp)
      split
      · exact .inr le_rfl
      · exact .inl rfl
    · split
      · exact .inr le_rfl
      · rename_i hdots _ _
        exact .inl (by rw [hdots])
  · exact .inl rfl

theorem length_foldl_push (absolute : Bool) (names stack : List String) :
    names.foldl (push absolute) stack = names.reverse ++ stack ∨
      (names.foldl (push absolute) stack).length < names.length + stack.length := by
  induction names generalizing stack with
  | nil => exact .inl rfl
  | cons name names ih =>
    rw [List.foldl_cons, List.length_cons]
    rcases length_push absolute stack name with hpush | hpush <;>
      rcases ih (push absolute stack name) with hsame | hless
    · refine .inl ?_
      rw [hsame, hpush]
      simp
    · rw [hpush, List.length_cons] at hless
      rw [hpush]
      exact .inr (by omega)
    · have := congrArg List.length hsame
      rw [List.length_append, List.length_reverse] at this
      exact .inr (by omega)
    · exact .inr (by omega)

/-- Nothing was dropped or worked off if no name is missing in the end. -/
theorem eq_of_length_collapse {absolute : Bool} {names : List String}
    (h : (collapse absolute names).length = names.length) : collapse absolute names = names := by
  unfold collapse at h ⊢
  rcases length_foldl_push absolute names [] with hsame | hless
  · rw [hsame]
    simp
  · rw [List.length_reverse] at h
    simp at hless
    omega

theorem foldl_push_leading (ups more : ℕ) :
    (List.replicate ups "..").foldl (push false) (List.replicate more "..") =
      List.replicate (ups + more) ".." := by
  induction ups generalizing more with
  | zero => simp
  | succ ups ih =>
    have hpush : push false (List.replicate more "..") ".." = List.replicate (more + 1) ".." := by
      cases more <;> simp [push, List.replicate_succ]
    rw [List.replicate_succ, List.foldl_cons, hpush, ih]
    congr 1
    omega

/-- The names of a relative path in normal form collapse to themselves. -/
theorem Normal.collapse_eq (hp : p.Normal) : collapse false p.segments = p.segments := by
  obtain ⟨ups, names, hs, hn, -⟩ := hp.names
  have hups := foldl_push_leading ups 0
  rw [List.replicate_zero, Nat.add_zero] at hups
  rw [hs, collapse, List.foldl_append, hups, foldl_push_ordinary hn]
  simp

theorem Normal.ne_empty (hp : p.Normal) {n : String} (hn : n ∈ p.segments) :
    n.toList ≠ [] ∧ '/' ∉ n.toList := by
  obtain ⟨ups, names, hs, ho, -⟩ := hp.names
  rw [hs] at hn
  rcases List.mem_append.mp hn with hdots | hname
  · rw [List.eq_of_mem_replicate hdots]
    decide
  · exact ⟨fun hnil => (ho n hname).1 (String.toList_eq_nil_iff.mp hnil), (ho n hname).2.2.2⟩

theorem trim_eq_self_iff {cs : List Char} : Text.trim cs = cs ↔
    cs.head?.any Text.isBlank = false ∧ cs.getLast?.any Text.isBlank = false := by
  have htrim : Text.trim cs = (cs.dropWhile Text.isBlank).rdropWhile Text.isBlank := rfl
  have hfront : cs.dropWhile Text.isBlank = cs ↔ cs.head?.any Text.isBlank = false := by
    cases cs with
    | nil => simp
    | cons c cs => simp [List.dropWhile_eq_self_iff]
  have hback : cs.rdropWhile Text.isBlank = cs ↔ cs.getLast?.any Text.isBlank = false := by
    rcases List.eq_nil_or_concat' cs with rfl | ⟨cs, c, rfl⟩ <;> simp [List.rdropWhile_eq_self_iff]
  rw [htrim, ← hfront, ← hback]
  constructor
  · intro heq
    have hlen := (List.dropWhile_suffix (l := cs) Text.isBlank).length_le
    have hlen' := (List.rdropWhile_prefix Text.isBlank (cs.dropWhile Text.isBlank)).length_le
    rw [heq] at hlen'
    have hsame : cs.dropWhile Text.isBlank = cs :=
      (List.dropWhile_suffix (l := cs) Text.isBlank).eq_of_length (by omega)
    exact ⟨hsame, by rwa [hsame] at heq⟩
  · rintro ⟨hf, hb⟩
    rw [hf, hb]

theorem length_splitOn_slash (cs : List Char) : (cs.splitOn '/').length = cs.count '/' + 1 := by
  induction cs with
  | nil => simp
  | cons c cs ih =>
    rw [List.splitOn_cons_eq_if_modifyHead, List.count_cons]
    split
    · rw [List.length_cons, ih]
    · rw [List.length_modifyHead, ih]

theorem count_slash_trim (cs : List Char) : (Text.trim cs).count '/' = cs.count '/' := by
  have hdrop : ∀ cs : List Char, (cs.dropWhile Text.isBlank).count '/' = cs.count '/' := by
    intro cs
    conv => rhs; rw [← List.takeWhile_append_dropWhile (p := Text.isBlank) (l := cs)]
    have hnone : (cs.takeWhile Text.isBlank).count '/' = 0 := by
      rw [List.count_eq_zero]
      intro hmem
      have := List.mem_takeWhile_imp hmem
      rw [isBlank_slash] at this
      cases this
    rw [List.count_append, hnone, Nat.zero_add]
  rw [Text.trim, List.count_reverse, hdrop, List.count_reverse, hdrop]

/-- Two slashes in a row leave an empty piece between them. -/
theorem nil_mem_splitOn (front rest : List Char) :
    [] ∈ ((front ++ '/' :: '/' :: rest).splitOn '/').tail := by
  induction front with
  | nil => simp [List.splitOn_cons_eq_if_modifyHead]
  | cons c front ih =>
    rw [List.cons_append, List.splitOn_cons_eq_if_modifyHead]
    split
    · exact List.mem_of_mem_tail ih
    · rwa [List.tail_modifyHead]

/-- A text without empty pieces has no scheme and no authority. -/
theorem split_of_pieces {cs : List Char} (h : [] ∉ cs.splitOn '/') :
    split cs = ⟨none, none, cs⟩ := by
  have hnone : ∀ front rest, cs ≠ front ++ '/' :: '/' :: rest := by
    rintro front rest rfl
    exact h (List.mem_of_mem_tail (nil_mem_splitOn front rest))
  refine split_eq ((splitScheme_cases cs).resolve_right ?_)
    ((splitAuthority_cases cs).resolve_right ?_)
  · rintro ⟨s, rest, -, heq, -⟩
    exact hnone (s ++ [':']) rest (by simpa using heq)
  · rintro ⟨a, body, -, heq, -⟩
    exact hnone [] (a ++ body) heq

/-- All of a text is its body if it is read as a relative path. -/
theorem body_of_relative {cs : List Char} (h : (split cs).isAbsolute = false) :
    (split cs).body = cs := by
  rcases splitScheme_cases cs with hs | ⟨s, rest, hs, -⟩
  · rcases splitAuthority_cases cs with ha | ⟨a, body, ha, -⟩
    · rw [split_eq hs ha]
    · rw [split_eq hs ha] at h
      simp [Parts.isAbsolute] at h
  · rw [split_eq hs rfl] at h
    simp [Parts.isAbsolute] at h

/-- A text without empty pieces ends where its first and its last piece end. -/
theorem ends_of_pieces {cs : List Char} (h : [] ∉ cs.splitOn '/') :
    cs.head? = (cs.splitOn '/').head?.bind List.head? ∧
      cs.getLast? = (cs.splitOn '/').getLast?.bind List.getLast? := by
  have hne : cs ≠ [] := by
    rintro rfl
    simp at h
  have hjoin : ['/'].intercalate (cs.splitOn '/') = cs := List.intercalate_splitOn '/'
  generalize cs.splitOn '/' = pieces at h hjoin
  subst hjoin
  have hpieces : pieces ≠ [] := by
    rintro rfl
    exact hne rfl
  constructor
  · obtain ⟨first, rest, rfl⟩ := List.exists_cons_of_ne_nil hpieces
    have hfirst : first ≠ [] := fun hnil => h (by simp [hnil])
    cases rest with
    | nil => simp
    | cons second rest =>
      rw [List.intercalate_cons_cons, List.append_assoc, List.head?_append_of_ne_nil _ hfirst]
      rfl
  · obtain ⟨front, last, rfl⟩ := (List.eq_nil_or_concat' pieces).resolve_left hpieces
    have hlast : last ≠ [] := fun hnil => h (by simp [hnil])
    have hspell := intercalate_slash hpieces
    rw [spell_append, spell_cons, spell_nil, List.append_nil] at hspell
    have hends := congrArg List.getLast? hspell
    obtain ⟨c, cs, hcs⟩ := List.exists_cons_of_ne_nil hne
    obtain ⟨d, ds, rfl⟩ := List.exists_cons_of_ne_nil hlast
    rw [hcs, List.getLast?_cons_cons, List.getLast?_append_of_ne_nil _ (by simp),
      List.getLast?_cons_cons] at hends
    rw [hcs, hends]
    simp

section Relative

variable (hp : p.Normal) (hr : p.absolute = false)

include hp hr

theorem splitOn_text_relative : p.text.toList.splitOn '/' = p.segments.map String.toList := by
  have htext : p.text.toList = ['/'].intercalate (p.segments.map String.toList) := by
    simp [text, localText, hr, Location.isStated_eq_false_iff.mp (hp.location_eq hr)]
  rw [htext]
  refine List.splitOn_intercalate _ (fun cs hcs => ?_) (by simpa using hp.ne_nil hr)
  obtain ⟨n, hn, rfl⟩ := List.mem_map.mp hcs
  exact (hp.ne_empty hn).2

theorem splitNames_text_relative : splitNames p.text.toList = p.segments := by
  rw [splitNames, splitOn_text_relative hp hr, List.map_map]
  simp [Function.comp_def]

theorem nil_not_mem_pieces : [] ∉ p.text.toList.splitOn '/' := by
  rw [splitOn_text_relative hp hr]
  intro hmem
  obtain ⟨n, hn, hempty⟩ := List.mem_map.mp hmem
  exact (hp.ne_empty hn).1 hempty

/-- A relative path is read again exactly when no blanks are trimmed. -/
theorem toPath_text_relative : (split (Text.trim p.text.toList)).toPath = p ↔
    Text.trim p.text.toList = p.text.toList := by
  have hpieces := splitOn_text_relative hp hr
  constructor
  · intro h
    have hrel : (split (Text.trim p.text.toList)).isAbsolute = false := by
      rw [← Parts.absolute_toPath, h, hr]
    have hsegments : collapse false (splitNames (Text.trim p.text.toList)) = p.segments := by
      rw [← congrArg Path.segments h, Parts.segments_toPath, hrel, body_of_relative hrel]
    -- Blanks are not slashes, so no name can have been dropped.
    have hlen : (splitNames (Text.trim p.text.toList)).length = p.segments.length := by
      rw [splitNames, List.length_map, length_splitOn_slash, count_slash_trim,
        ← length_splitOn_slash, hpieces, List.length_map]
    have hsame : collapse false (splitNames (Text.trim p.text.toList)) =
        splitNames (Text.trim p.text.toList) := eq_of_length_collapse (by rw [hsegments, hlen])
    have hnames : (Text.trim p.text.toList).splitOn '/' = p.text.toList.splitOn '/' := by
      rw [hpieces, ← hsegments, hsame, splitNames, List.map_map]
      simp [Function.comp_def]
    have hjoin := congrArg (['/'].intercalate ·) hnames
    simpa [List.intercalate_splitOn] using hjoin
  · intro h
    rw [h]
    have hnil := nil_not_mem_pieces hp hr
    have hhead : (p.text.toList.head? == some '/') = false := by
      rw [beq_eq_false_iff_ne]
      intro hslash
      obtain ⟨rest, hrest⟩ := List.head?_eq_some_iff.mp hslash
      rw [hrest, List.splitOn_cons_eq_if_modifyHead] at hnil
      simp at hnil
    have hloc := Location.isStated_eq_false_iff.mp (hp.location_eq hr)
    rw [split_of_pieces hnil]
    simp only [Parts.toPath, Parts.isAbsolute, Parts.location, hhead,
      splitNames_text_relative hp hr, Option.map_none, Option.isSome_none, Bool.or_self,
      hp.collapse_eq]
    obtain ⟨l, names, absolute⟩ := p
    cases hr
    cases hloc
    rfl

/-- A relative path is read again exactly when it neither starts nor ends with a blank. -/
theorem trim_text_relative : Text.trim p.text.toList = p.text.toList ↔
    (∀ n, p.segments.head? = some n → ¬StartsBlank n) ∧
      ∀ n, p.segments.getLast? = some n → ¬EndsBlank n := by
  obtain ⟨hhead, hlast⟩ := ends_of_pieces (nil_not_mem_pieces hp hr)
  rw [trim_eq_self_iff, hhead, hlast, splitOn_text_relative hp hr, List.head?_map,
    List.getLast?_map]
  have hne := hp.ne_nil hr
  rw [List.head?_eq_some_head hne, List.getLast?_eq_some_getLast hne]
  simp [StartsBlank, EndsBlank]

end Relative

/-! ## The paths that last -/

/-- The paths that are read again from their own texts. -/
structure Lasting (p : Path) : Prop where
  /-- The location is one that can be read. -/
  location : p.location.Plain
  /-- The text is no longer than an address may be. -/
  length : p.text.length ≤ maxTextLength
  /-- The last name does not end with a blank. -/
  last : ∀ n, p.segments.getLast? = some n → ¬EndsBlank n
  /-- A relative path does not start with a blank. -/
  first : p.absolute = false → ∀ n, p.segments.head? = some n → ¬StartsBlank n

theorem isRefused_slash : isRefused '/' = false := by decide

theorem isRefused_text_location {l : Location} (hl : l.Plain) {c : Char}
    (hmem : c ∈ l.text.toList) : isRefused c = false := by
  obtain ⟨scheme, authority⟩ := l
  have hauthority : ∀ c ∈ (authority.getD "").toList, isRefused c = false := by
    cases authority with
    | none => simp
    | some a => exact (hl.authority a rfl).2.2
  cases scheme with
  | some s =>
    have hcases : c ∈ s.toList ∨ c = ':' ∨ c = '/' ∨ c ∈ (authority.getD "").toList := by
      simpa [Location.text, or_assoc] using hmem
    rcases hcases with hs | rfl | rfl | ha
    · exact ((hl.scheme s rfl).2 c hs).2.2
    · decide
    · exact isRefused_slash
    · exact hauthority c ha
  | none =>
    cases authority with
    | none => simp [Location.text] at hmem
    | some a =>
      have hcases : c = '/' ∨ c ∈ a.toList := by simpa [Location.text] using hmem
      rcases hcases with rfl | ha
      · exact isRefused_slash
      · exact hauthority c ha

theorem isRefused_intercalate {names : List String} (h : Clean names) {c : Char}
    (hmem : c ∈ ['/'].intercalate (names.map String.toList)) : isRefused c = false := by
  by_cases hnil : names = []
  · simp [hnil] at hmem
  have hspell : c ∈ spell (names.map String.toList) := by
    rw [← intercalate_slash (by simpa using hnil)]
    exact List.mem_cons_of_mem _ hmem
  obtain ⟨piece, hpiece, hin⟩ := List.mem_flatMap.mp hspell
  obtain ⟨n, hn, rfl⟩ := List.mem_map.mp hpiece
  rcases List.mem_cons.mp hin with rfl | hin
  · exact isRefused_slash
  · exact (h n hn).2 c hin

/-- No refused character comes in when a path is written. -/
theorem isRefused_text (hl : p.location.Plain) (hc : Clean p.segments) :
    ∀ c ∈ p.text.toList, isRefused c = false := by
  intro c hmem
  rw [text, String.toList_append, localText, String.toList_append] at hmem
  rcases List.mem_append.mp hmem with hmem | hmem
  · exact isRefused_text_location hl hmem
  rcases List.mem_append.mp hmem with hmem | hmem
  · cases ha : p.absolute <;> simp [ha] at hmem
    rw [hmem]
    exact isRefused_slash
  · exact isRefused_intercalate hc (by simpa using hmem)

/-- **A path is read again from its own text exactly when it lasts.** -/
theorem read_text_iff (hp : p.Normal) (hc : Clean p.segments) :
    read p.text = .ok p ↔ p.Lasting := by
  have hread : read p.text = .ok p ↔ parse p.text = .ok p := mapError_eq_ok
  have hrest : (∀ n ∈ p.segments, n.length ≤ maxNameLength) ∧
      (p.absolute = false → p.segments ≠ []) := ⟨fun n hn => (hc n hn).1, hp.ne_nil⟩
  have hpath : p.location.Plain → ((split (Text.trim p.text.toList)).toPath = p ↔
      (∀ n, p.segments.getLast? = some n → ¬EndsBlank n) ∧
        (p.absolute = false → ∀ n, p.segments.head? = some n → ¬StartsBlank n)) := by
    intro hl
    cases ha : p.absolute with
    | true =>
      rw [toPath_text hp ha hl, ← settle_eq_self_iff (hp.ordinary ha)]
      obtain ⟨l, names, absolute⟩ := p
      cases ha
      simp
    | false =>
      rw [toPath_text_relative hp ha, trim_text_relative hp ha]
      simp [and_comm]
  rw [hread]
  constructor
  · intro h
    have hl := plain_of_parse h
    obtain ⟨hfault, hto, -⟩ := parse_eq_ok_iff.mp h
    obtain ⟨hlast, hfirst⟩ := (hpath hl).mp hto
    exact ⟨hl, (textFault?_eq_none_iff.mp hfault).2, hlast, hfirst⟩
  · rintro ⟨hl, hlen, hlast, hfirst⟩
    exact parse_eq_ok_iff.mpr ⟨textFault?_eq_none_iff.mpr ⟨isRefused_text hl hc, hlen⟩,
      (hpath hl).mpr ⟨hlast, hfirst⟩, hrest⟩

/-! ## Names behind a directory -/

theorem rootText_suffix_append (front : List String) {names : List String} (hne : names ≠ []) :
    (rootText names).toList <:+ (rootText (front ++ names)).toList := by
  by_cases hf : front = []
  · subst hf
    exact List.suffix_rfl
  · rw [toList_rootText_append hf hne]
    exact List.suffix_append _ _

theorem mem_rootText_append {front names : List String} {c : Char} (hne : names ≠ [])
    (hc : c ∈ (rootText (front ++ names)).toList) :
    c ∈ (rootText front).toList ∨ c ∈ (rootText names).toList := by
  by_cases hf : front = []
  · rw [hf, List.nil_append] at hc
    exact .inr hc
  · rw [toList_rootText_append hf hne] at hc
    exact List.mem_append.mp hc

/-- Names that can be read behind one directory can be read behind another one, if they make no text
that is too long there. -/
theorem Inward.read_append {front dir names : List String} {p q : Path} (h : Inward names)
    (hf : ∀ n ∈ front, Ordinary n) (hp : read (rootText (front ++ names)) = .ok p)
    (hd : ∀ n ∈ dir, Ordinary n) (hq : read (rootText dir) = .ok q)
    (hlen : (rootText (settle dir ++ names)).length ≤ maxTextLength) :
    read (rootText (settle dir ++ names)) = .ok ⟨{}, settle dir ++ settle names, true⟩ := by
  have hfrom := List.forall_mem_append.mpr ⟨hf, h.ordinary⟩
  have hto := List.forall_mem_append.mpr ⟨settle_ordinary hd, h.ordinary⟩
  obtain ⟨hfault, -, hshort, -⟩ := parse_eq_ok_iff.mp (mapError_eq_ok.mp hp)
  obtain rfl := eq_of_read_rootText hfrom hp
  rw [h.settle_append hf] at hshort
  obtain ⟨hchars, -⟩ := textFault?_eq_none_iff.mp hfault
  have hclean := clean_of_parse (mapError_eq_ok.mp hq)
  rw [eq_of_read_rootText hd hq] at hclean
  have hdir : ∀ c ∈ (rootText (settle dir)).toList, isRefused c = false :=
    isRefused_text (p := ⟨{}, settle dir, true⟩) ⟨by simp, by simp⟩ hclean
  have hall : ∀ c ∈ (rootText (settle dir ++ names)).toList, isRefused c = false := by
    intro c hmem
    rcases mem_rootText_append h.ne hmem with hmem | hmem
    · exact hdir c hmem
    · exact hchars c ((rootText_suffix_append front h.ne).subset hmem)
  have hread := toPath_rootText hto
  rw [h.settle_append (settle_ordinary hd)] at hread
  refine mapError_eq_ok.mpr (parse_eq_ok_iff.mpr
    ⟨textFault?_eq_none_iff.mpr ⟨hall, hlen⟩, hread, fun n hn => ?_, fun hrel => (nomatch hrel)⟩)
  rcases List.mem_append.mp hn with hn | hn
  · exact (hclean n hn).1
  · exact hshort n (List.mem_append_right _ hn)

end Path

end MountSpace
