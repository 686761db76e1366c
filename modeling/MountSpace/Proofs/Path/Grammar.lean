import MountSpace.Proofs.Path.Cancellation

/-!
# The language of addresses

Which texts are read as paths, and as which: the grammar of `Path.Cut` says how a text is taken
apart, `Path.Cancels` what remains of its names.  Neither mentions how reading goes about it.  A
text in which something is improper is refused, always with the same kind of error, and every
other text is read as the path that the grammar describes, which is in normal form.

## Main definitions

* `Path.Cut` — a text, and its scheme, authority and body.
* `Path.Spells` — a text, its parts and the names that remain.
* `Path.Improper` — what makes a text no address.

Main statement: `Path.read_language`.
-/

namespace MountSpace

namespace Path

open Relation

/-! ## The grammar -/

/-- A scheme as it may be written: a letter first, and only letters, digits and signs. -/
def IsScheme (cs : List Char) : Prop :=
  (∃ c, cs.head? = some c ∧ c.isAlpha = true) ∧ ∀ c ∈ cs, isSchemeChar c = true

/-- A text and its parts.  A scheme stands in front of a colon and two slashes, an authority
behind two slashes, and the authority goes on to the next slash. -/
inductive Cut : List Char → Parts → Prop
  /-- A scheme and an authority, which may be empty. -/
  | scheme {s a body : List Char} (hs : IsScheme s) (ha : '/' ∉ a)
      (hb : ∀ c, body.head? = some c → c = '/') :
    Cut (s ++ ':' :: '/' :: '/' :: (a ++ body)) ⟨some s, some a, body⟩
  /-- An authority without a scheme. -/
  | authority {a body : List Char} (ha : '/' ∉ a) (hb : ∀ c, body.head? = some c → c = '/') :
    Cut ('/' :: '/' :: (a ++ body)) ⟨none, some a, body⟩
  /-- Neither. -/
  | body {cs : List Char} (hs : ∀ s rest, IsScheme s → cs ≠ s ++ ':' :: '/' :: '/' :: rest)
      (ha : ∀ rest, cs ≠ '/' :: '/' :: rest) :
    Cut cs ⟨none, none, cs⟩

variable {cs a body : List Char} {parts : Parts}

theorem splitAuthority_eq (ha : '/' ∉ a) (hb : ∀ c, body.head? = some c → c = '/') :
    splitAuthority ('/' :: '/' :: (a ++ body)) = (some a, body) := by
  cases body with
  | cons c rest =>
    rw [hb c rfl]
    exact splitAuthority_append ha rest
  | nil =>
    have hchars : ∀ d ∈ a, (d != '/') = true := by
      intro d hd
      have hne : d ≠ '/' := fun heq => ha (heq ▸ hd)
      simpa using hne
    rw [List.append_nil]
    change (some (a.takeWhile (· != '/')), a.dropWhile (· != '/')) = _
    rw [List.takeWhile_eq_self_iff.mpr hchars, List.dropWhile_eq_nil_iff.mpr hchars]

/-- An authority goes on to the next slash. -/
theorem exists_authority (cs : List Char) : ∃ a body, cs = a ++ body ∧ '/' ∉ a ∧
    ∀ c, body.head? = some c → c = '/' := by
  refine ⟨cs.takeWhile (· != '/'), cs.dropWhile (· != '/'),
    List.takeWhile_append_dropWhile.symm, fun hmem => ?_, fun c hc => ?_⟩
  · simpa using List.mem_takeWhile_imp hmem
  · have hstop := List.head?_dropWhile_not (· != '/') cs
    rw [hc] at hstop
    simpa using hstop

theorem Cut.split_eq (h : Cut cs parts) : split cs = parts := by
  cases h with
  | scheme hs ha hb =>
    obtain ⟨⟨c, hhead, halpha⟩, hall⟩ := hs
    exact Path.split_eq (splitScheme_append hhead halpha hall _) (splitAuthority_eq ha hb)
  | authority ha hb => exact Path.split_eq (splitScheme_slash _) (splitAuthority_eq ha hb)
  | body hs ha =>
    refine Path.split_eq ((splitScheme_cases cs).resolve_right ?_)
      ((splitAuthority_cases cs).resolve_right ?_)
    · rintro ⟨s, rest, -, heq, hs'⟩
      exact hs s rest hs' heq
    · rintro ⟨a, body, -, heq, -⟩
      exact ha _ heq

theorem cut_split (cs : List Char) : Cut cs (split cs) := by
  rcases splitScheme_cases cs with hscheme | ⟨s, rest, -, rfl, hs⟩
  swap
  · obtain ⟨a, body, rfl, ha, hb⟩ := exists_authority rest
    have hcut := Cut.scheme hs ha hb
    rwa [hcut.split_eq]
  by_cases hslashes : ∃ rest, cs = '/' :: '/' :: rest
  · obtain ⟨rest, rfl⟩ := hslashes
    obtain ⟨a, body, rfl, ha, hb⟩ := exists_authority rest
    have hcut := Cut.authority ha hb
    rwa [hcut.split_eq]
  have hcut : Cut cs ⟨none, none, cs⟩ := by
    refine .body (fun s rest hs heq => ?_) fun rest heq => hslashes ⟨rest, heq⟩
    obtain ⟨⟨c, hhead, halpha⟩, hall⟩ := hs
    rw [heq, splitScheme_append hhead halpha hall] at hscheme
    cases hscheme
  rwa [hcut.split_eq]

/-- **Reading cuts a text as the grammar says**, and the grammar leaves no choice. -/
theorem cut_iff : Cut cs parts ↔ split cs = parts :=
  ⟨Cut.split_eq, fun h => h ▸ cut_split cs⟩

/-! ## What a text says -/

/-- What a text says once the blanks at its ends are dropped: its parts, and the names that remain
when those in its body are cancelled as long as possible. -/
structure Spells (raw : String) (parts : Parts) (names : List String) : Prop where
  /-- The text is cut into the parts. -/
  cut : Cut (Text.trim raw.toList) parts
  /-- The names are reached from those in the body. -/
  reached : ReflTransGen (Cancels parts.isAbsolute) (splitNames parts.body) names
  /-- Nothing more can be cancelled. -/
  done : Cancelled parts.isAbsolute names

/-- What makes a text no address. -/
inductive Improper (raw : String) (parts : Parts) (names : List String) : Prop
  /-- It holds a control character that is neither a tab, a line feed nor a carriage return. -/
  | control {c : Char} (hc : c ∈ raw.toList) (hlow : c.toNat < 32) (htab : c ≠ '\t')
      (hfeed : c ≠ '\n') (hreturn : c ≠ '\r')
  /-- It is too long. -/
  | long (h : maxTextLength < raw.length)
  /-- A name that remains is too long. -/
  | longName {n : String} (hn : n ∈ names) (hlong : maxNameLength < n.length)
  /-- Nothing remains of a relative path. -/
  | empty (hs : parts.scheme = none) (ha : parts.authority = none)
      (hb : parts.body.head? ≠ some '/') (hn : names = [])

variable {raw : String} {names : List String} {p : Path} {c : Char}

theorem isRefused_iff : isRefused c = true ↔ c.toNat < 32 ∧ c ≠ '\t' ∧ c ≠ '\n' ∧ c ≠ '\r' := by
  have hkeep : c.toNat = 0 → c ≠ '\t' ∧ c ≠ '\n' ∧ c ≠ '\r' := by
    intro hzero
    refine ⟨?_, ?_, ?_⟩ <;> rintro rfl <;> cases hzero
  unfold isRefused isRefusedControl
  simp only [Bool.or_eq_true, Bool.and_eq_true, beq_iff_eq, bne_iff_ne, decide_eq_true_eq]
  constructor
  · rintro (hzero | ⟨⟨⟨⟨-, hlow⟩, htab⟩, hfeed⟩, hreturn⟩)
    · exact ⟨by omega, hkeep hzero⟩
    · exact ⟨hlow, htab, hfeed, hreturn⟩
  · rintro ⟨hlow, htab, hfeed, hreturn⟩
    by_cases hzero : c.toNat = 0
    · exact .inl hzero
    · exact .inr ⟨⟨⟨⟨by omega, hlow⟩, htab⟩, hfeed⟩, hreturn⟩

theorem isAbsolute_eq_false_iff : parts.isAbsolute = false ↔
    parts.scheme = none ∧ parts.authority = none ∧ parts.body.head? ≠ some '/' := by
  simp [Parts.isAbsolute, and_comm, and_left_comm]

/-- A text says one thing. -/
theorem spells_iff : Spells raw parts names ↔
    split (Text.trim raw.toList) = parts ∧ parts.toPath.segments = names := by
  constructor
  · rintro ⟨hcut, hreached, hdone⟩
    exact ⟨hcut.split_eq, collapse_eq_iff.mpr ⟨hreached, hdone⟩⟩
  · rintro ⟨hcut, hnames⟩
    obtain ⟨hreached, hdone⟩ := collapse_eq_iff.mp hnames
    exact ⟨cut_iff.mpr hcut, hreached, hdone⟩

/-- A text is read exactly if nothing in it is improper, and as what it says. -/
theorem Spells.parse_eq_ok_iff (h : Spells raw parts names) :
    parse raw = .ok p ↔
      ¬Improper raw parts names ∧ ⟨parts.location, names, parts.isAbsolute⟩ = p := by
  obtain ⟨hcut, rfl⟩ := spells_iff.mp h
  rw [Path.parse_eq_ok_iff, hcut, textFault?_eq_none_iff]
  constructor
  · rintro ⟨⟨hclean, hlength⟩, rfl, hshort, hne⟩
    refine ⟨?_, rfl⟩
    rintro (⟨hc, hlow, htab, hfeed, hreturn⟩ | hlong | ⟨hn, hlong⟩ | ⟨hs, ha, hb, hnil⟩)
    · have := hclean _ hc
      rw [isRefused_iff.mpr ⟨hlow, htab, hfeed, hreturn⟩] at this
      cases this
    · omega
    · have := hshort _ hn
      omega
    · exact hne (isAbsolute_eq_false_iff.mpr ⟨hs, ha, hb⟩) hnil
  · rintro ⟨hproper, rfl⟩
    refine ⟨⟨fun c hc => ?_, ?_⟩, rfl, fun n hn => ?_, fun hrel hnil => ?_⟩
    · by_contra hrefused
      obtain ⟨hlow, htab, hfeed, hreturn⟩ := isRefused_iff.mp (by simpa using hrefused)
      exact hproper (.control hc hlow htab hfeed hreturn)
    · by_contra hlong
      exact hproper (.long (by omega))
    · by_contra hlong
      exact hproper (.longName hn (by omega))
    · obtain ⟨hs, ha, hb⟩ := isAbsolute_eq_false_iff.mp hrel
      exact hproper (.empty hs ha hb hnil)

/-- **The language of addresses.**  Every text says one thing.  It is refused exactly if something
in it is improper, always as an invalid path, and otherwise read as the path that it says, which
is in normal form and whose location is plain. -/
theorem read_language (raw : String) : ∃ parts names,
    (∀ parts' names', Spells raw parts' names' ↔ parts' = parts ∧ names' = names) ∧
    ((∃ e, read raw = .error e) ↔ Improper raw parts names) ∧
    (∀ e, read raw = .error e → e.kind = .invalidPath) ∧
    ∀ p, read raw = .ok p → p = ⟨parts.location, names, parts.isAbsolute⟩ ∧ p.Normal ∧
      p.location.Plain := by
  obtain ⟨parts, names, hspells⟩ : ∃ parts names, Spells raw parts names :=
    ⟨_, _, spells_iff.mpr ⟨rfl, rfl⟩⟩
  have hread : ∀ p, read raw = .ok p ↔
      ¬Improper raw parts names ∧ ⟨parts.location, names, parts.isAbsolute⟩ = p :=
    fun p => mapError_eq_ok.trans hspells.parse_eq_ok_iff
  refine ⟨parts, names, fun parts' names' => ⟨fun h => ?_, ?_⟩, ⟨?_, fun himproper => ?_⟩, ?_,
    fun p hp => ?_⟩
  · obtain ⟨hcut, hnames⟩ := spells_iff.mp hspells
    obtain ⟨rfl, rfl⟩ := spells_iff.mp h
    subst hcut
    exact ⟨rfl, hnames⟩
  · rintro ⟨rfl, rfl⟩
    exact hspells
  · rintro ⟨e, he⟩
    by_contra hproper
    rw [(hread _).mpr ⟨hproper, rfl⟩] at he
    cases he
  · cases hresult : read raw with
    | error e => exact ⟨e, rfl⟩
    | ok p => exact absurd himproper ((hread p).mp hresult).1
  · intro e he
    obtain ⟨cause, -, rfl⟩ := mapError_eq_error.mp he
    rfl
  · exact ⟨((hread p).mp hp).2.symm, normal_of_read hp, plain_of_parse (mapError_eq_ok.mp hp)⟩

end Path

end MountSpace
