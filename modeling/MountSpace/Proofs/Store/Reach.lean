import MountSpace.Proofs.Store.Links

/-!
# Ways of the host one by one

A way that leads to a directory is gone on from there, and a way whose end is no link leads to the
same place whether or not links are followed in the last place.  Nothing is asked of the names: the
way may go up, through links, or out of the home.

Main statements: `HostTree.locate_concat`, `HostTree.locate_follow`, `HostTree.placeOf_of_holder`.
-/

namespace MountSpace

namespace HostTree

variable {t : HostTree} {dir place other : Place} {names more : List String} {name : String}
variable {follow : Bool} {links : ℕ}

/-- A walk that does not fail short of a directory goes on with the names that come after. -/
theorem advance_append_of_directory (hne : more ≠ [])
    (hdir : ∀ place, t.advance true dir names = .at_ place → t.node? place = some .directory) :
    t.advance follow dir (names ++ more) = match t.advance true dir names with
      | .at_ place => t.advance follow place more
      | .link other text rest => .link other text (rest ++ more)
      | .failed cause => .failed cause := by
  induction names generalizing dir with
  | nil => rfl
  | cons name rest ih =>
    rw [List.cons_append, advance_on (by simp [hne])]
    by_cases hnil : rest = []
    · subst hnil
      rw [advance_end] at hdir ⊢
      by_cases hlong : t.limits.refusesName name = true
      · rw [if_pos hlong, if_pos hlong]
      rw [if_neg hlong] at hdir
      rw [if_neg hlong, if_neg hlong]
      cases hnode : t.node? (next dir name) with
      | none =>
        rw [hnode] at hdir
        cases hnode.symm.trans (hdir _ rfl)
      | some node =>
        rw [hnode] at hdir
        cases node with
        | directory | link => rfl
        | file => cases hnode.symm.trans (hdir _ rfl)
    · rw [advance_on hnil] at hdir ⊢
      by_cases hlong : t.limits.refusesName name = true
      · rw [if_pos hlong, if_pos hlong]
      rw [if_neg hlong] at hdir
      rw [if_neg hlong, if_neg hlong]
      cases hnode : t.node? (next dir name) with
      | none => rfl
      | some node =>
        rw [hnode] at hdir
        cases node with
        | directory => exact ih hdir
        | link | file => rfl

/-- Whether the last name is followed does not matter, if no link stands there. -/
theorem advance_true_eq (hl : ∀ place text, t.advance false dir names = .at_ place →
    t.node? place ≠ some (.link text)) :
    t.advance true dir names = t.advance false dir names := by
  induction names generalizing dir with
  | nil => rfl
  | cons name rest ih =>
    by_cases hnil : rest = []
    · subst hnil
      rw [advance_end] at hl
      rw [advance_end, advance_end]
      by_cases hlong : t.limits.refusesName name = true
      · rw [if_pos hlong, if_pos hlong]
      rw [if_neg hlong] at hl
      rw [if_neg hlong, if_neg hlong]
      cases hnode : t.node? (next dir name) with
      | none => rfl
      | some node =>
        rw [hnode] at hl
        cases node with
        | link text => exact absurd hnode (hl _ text rfl)
        | directory | file => rfl
    · rw [advance_on hnil] at hl
      rw [advance_on hnil, advance_on hnil]
      by_cases hlong : t.limits.refusesName name = true
      · rw [if_pos hlong, if_pos hlong]
      rw [if_neg hlong] at hl
      rw [if_neg hlong, if_neg hlong]
      cases hnode : t.node? (next dir name) with
      | none => rfl
      | some node =>
        rw [hnode] at hl
        cases node with
        | directory => exact ih hl
        | link | file => rfl

theorem locate_of_link {text : String} {rest : List String}
    (h : t.advance follow dir names = .link other text rest) :
    t.locate follow (links + 1) dir names =
      t.locate follow links (linkStart other text) (linkNames text ++ rest) := by
  conv_lhs => unfold locate
  rw [h]

/-- What stands in a directory is found after the way to that directory, unless its name is too
long. -/
theorem locate_concat (hdots : isDots name = false) (hdir : t.node? place = some .directory)
    (h : t.locate true links dir names = .ok place) :
    t.locate false links dir (names ++ [name]) =
      if t.limits.refusesName name then .error .nameTooLong else .ok (place ++ [name]) := by
  have hnext : next place name = place ++ [name] := by
    rw [isDots, Bool.or_eq_false_iff] at hdots
    rw [next, if_neg (by simpa using hdots.2), if_neg (by simpa using hdots.1)]
  have hlast : t.advance false place [name] =
      if t.limits.refusesName name then .failed .nameTooLong else .at_ (place ++ [name]) := by
    rw [advance_end, hnext]
    split
    · rfl
    · split <;> rfl
  fun_induction locate t true links dir names with
  | case1 links dir names there hat =>
    cases h
    have hmore : t.advance false dir (names ++ [name]) = t.advance false place [name] := by
      refine (advance_append_of_directory (by simp) fun there hthere => ?_).trans ?_
      · cases hat.symm.trans hthere
        exact hdir
      · rw [hat]
    unfold locate
    rw [hmore, hlast]
    by_cases hname : t.limits.refusesName name = true
    · rw [if_pos hname, if_pos hname]
    · rw [if_neg hname, if_neg hname]
  | case2 | case3 => cases h
  | case4 dir names other text rest hlink links ih =>
    have hmore : t.advance false dir (names ++ [name]) = .link other text (rest ++ [name]) := by
      refine (advance_append_of_directory (by simp) fun there hthere => ?_).trans ?_
      · cases hlink.symm.trans hthere
      · rw [hlink]
    rw [locate_of_link hmore, ← List.append_assoc]
    exact ih h

/-- Following the last name leads to the same place, if no link stands there. -/
theorem locate_follow (hl : ∀ text, t.node? place ≠ some (.link text))
    (h : t.locate false links dir names = .ok place) :
    t.locate true links dir names = .ok place := by
  fun_induction locate t false links dir names with
  | case1 links dir names there hat =>
    cases h
    refine locate_of_at ((advance_true_eq fun there text hthere => ?_).trans hat)
    cases hat.symm.trans hthere
    exact hl text
  | case2 | case3 => cases h
  | case4 dir names other text rest hlink links ih =>
    have hsame : t.advance true dir names = t.advance false dir names :=
      advance_true_eq fun there text hthere => by cases hlink.symm.trans hthere
    rw [locate_of_link (hsame.trans hlink)]
    exact ih h

/-- The end of a way is where its holder says, if it is not too long and no dot. -/
theorem placeOf_of_holder (hne : names ≠ []) (hname : t.limits.refusesName name = false)
    (hdots : isDots name = false) (h : t.holder names = .ok (dir, name)) :
    t.placeOf false names = .ok (dir ++ [name]) := by
  obtain ⟨hway, hp, hdir, hlast⟩ := holder_eq_ok.mp h
  obtain ⟨front, last, rfl⟩ := (List.eq_nil_or_concat' names).resolve_left hne
  obtain rfl : last = name := by simpa using hlast
  rw [List.dropLast_concat] at hp
  obtain ⟨-, hlocate⟩ := placeOf_eq_ok.mp hp
  exact placeOf_eq_ok.mpr
    ⟨hway, (locate_concat hdots hdir hlocate).trans (if_neg (by simp [hname]))⟩

theorem placeOf_follow (hp : t.placeOf false names = .ok place)
    (hl : ∀ text, t.node? place ≠ some (.link text)) : t.placeOf true names = .ok place := by
  obtain ⟨hway, hlocate⟩ := placeOf_eq_ok.mp hp
  exact placeOf_eq_ok.mpr ⟨hway, locate_follow hl hlocate⟩

end HostTree

end MountSpace
