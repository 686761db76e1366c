import MountSpace.Proofs.Path.Lasting

/-!
# Reading a path back

A path that was read is written as a text, and the text is read.  The same path comes back exactly
when the text has no more characters than an address may have and neither starts nor ends with a
blank.  Otherwise the text is refused, or another path comes back.

Main statement: `Path.reads_back_iff`.
-/

namespace MountSpace

namespace Path

variable {raw : String} {p : Path}

/-- The text of a path from a root starts with its scheme or with a slash. -/
theorem not_startsBlank_text (hl : p.location.Plain) (ha : p.absolute = true) :
    ¬StartsBlank p.text := by
  have htext : p.text.toList =
      p.location.text.toList ++ '/' :: ("/".intercalate p.segments).toList := by
    simp [text, localText, ha]
  rw [StartsBlank, htext, List.head?_append]
  cases hhead : p.location.text.toList.head? with
  | none => simp [isBlank_slash]
  | some c => simp [isBlank_head_location hl hhead]

/-- The text of a path from a root ends with its last name or with a slash. -/
theorem endsBlank_text_iff (hp : p.Normal) (ha : p.absolute = true) :
    EndsBlank p.text ↔ ∃ n, p.segments.getLast? = some n ∧ EndsBlank n := by
  have htext : p.text.toList = p.location.text.toList ++ (rootText p.segments).toList := by
    simp [text, rootText, localText, ha]
  rw [EndsBlank, htext]
  rcases List.eq_nil_or_concat' p.segments with hnil | ⟨front, name, hsegments⟩
  · have hroot : (rootText []).toList = ['/'] := rfl
    simp [hnil, hroot, isBlank_slash]
  · have hne : name.toList ≠ [] := (hp.ne_empty (by simp [hsegments])).1
    have hlast : (p.location.text.toList ++ (rootText (front ++ [name])).toList).getLast? =
        name.toList.getLast? := by
      obtain ⟨c, cs, hname⟩ := List.exists_cons_of_ne_nil hne
      rw [toList_rootText_concat, List.getLast?_append_of_ne_nil _ (by simp),
        List.getLast?_append_of_ne_nil _ (by simp), hname, List.getLast?_cons_cons]
    rw [hsegments, hlast]
    simp [EndsBlank]

/-- A path that was read lasts exactly when its text can be read to its ends. -/
theorem lasting_iff_text (hp : p.Normal) (hl : p.location.Plain) : p.Lasting ↔
    p.text.length ≤ maxTextLength ∧ ¬StartsBlank p.text ∧ ¬EndsBlank p.text := by
  cases ha : p.absolute with
  | true =>
    rw [endsBlank_text_iff hp ha]
    constructor
    · rintro ⟨-, hlength, hlast, -⟩
      exact ⟨hlength, not_startsBlank_text hl ha, fun ⟨n, hn, hblank⟩ => hlast n hn hblank⟩
    · rintro ⟨hlength, -, hlast⟩
      exact ⟨hl, hlength, fun n hn hblank => hlast ⟨n, hn, hblank⟩, by simp [ha]⟩
  | false =>
    have hends : Text.trim p.text.toList = p.text.toList ↔
        ¬StartsBlank p.text ∧ ¬EndsBlank p.text := by
      simp [trim_eq_self_iff, StartsBlank, EndsBlank]
    rw [← hends, trim_text_relative hp ha]
    constructor
    · rintro ⟨-, hlength, hlast, hfirst⟩
      exact ⟨hlength, hfirst ha, hlast⟩
    · rintro ⟨hlength, hfirst, hlast⟩
      exact ⟨hl, hlength, hlast, fun _ => hfirst⟩

/-- **A path that was read comes back from its text exactly if the text can be read to its ends**:
it has no more characters than an address may have, and no blank at its start or its end.  In
every other case the text is refused as an invalid path, or read as another path. -/
theorem reads_back_iff (h : read raw = .ok p) :
    (read p.text = .ok p ↔
      p.text.length ≤ maxTextLength ∧ ¬StartsBlank p.text ∧ ¬EndsBlank p.text) ∧
    (¬(p.text.length ≤ maxTextLength ∧ ¬StartsBlank p.text ∧ ¬EndsBlank p.text) →
      (∃ e, read p.text = .error e ∧ e.kind = .invalidPath) ∨
        ∃ q, read p.text = .ok q ∧ q ≠ p) := by
  have hparse := mapError_eq_ok.mp h
  have hiff := (read_text_iff (normal_of_read h) (clean_of_parse hparse)).trans
    (lasting_iff_text (normal_of_read h) (plain_of_parse hparse))
  refine ⟨hiff, fun hnot => ?_⟩
  cases hagain : read p.text with
  | ok q =>
    refine .inr ⟨q, rfl, ?_⟩
    rintro rfl
    exact hnot (hiff.mp hagain)
  | error e =>
    refine .inl ⟨e, rfl, ?_⟩
    obtain ⟨cause, -, rfl⟩ := mapError_eq_error.mp hagain
    rfl

/-- An address between blanks, with a scheme in capitals, an empty authority, two slashes, a colon
in a name, and a name that is worked off. -/
theorem reads_back_mixed :
    read " LFS:////a:b//c /./../d " = .ok ⟨⟨some "lfs", none⟩, ["a:b", "d"], true⟩ ∧
      read "lfs:///a:b/d" = .ok ⟨⟨some "lfs", none⟩, ["a:b", "d"], true⟩ := by
  have h : read " LFS:////a:b//c /./../d " = .ok ⟨⟨some "lfs", none⟩, ["a:b", "d"], true⟩ := by
    decide +kernel
  exact ⟨h, (reads_back_iff h).1.mpr (by decide +kernel)⟩

end Path

end MountSpace
