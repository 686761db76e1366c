import MountSpace.Proofs.Store.Home
import MountSpace.Proofs.Store.Rows

/-!
# What writing changes

Bytes that are handed to a store are to change one entry and no other.  A table looks for the row
under the key of the path, and a disk that replaces a file puts the new one at the place that the
path spells, links or not.  The host is led elsewhere in two ways only: by a link in the last place,
when bytes are appended, and by a link that has taken the place of the home.

## Main definitions

* `HostTree.kept?` — what is kept at a place, the times of directories aside.
* `HostTree.Still` — nothing is different but one entry and the directory that it stands in.
* `Disk.DivertsWrite`, `Disk.DivertsAppend` — the host is led elsewhere by a link.
* `Table.rowsAt` — what is kept under a key.

Main statements: `Disk.kept_write`, `Disk.kept_append`, `Disk.DivertsWrite.changes`,
`Disk.DivertsAppend.changes`, `Table.rowsAt_write`, `Table.rowsAt_append`.
-/

namespace MountSpace

open MountSpace.Path

/-- The entry, without its times if it is a directory. -/
def HostEntry.timeless (e : HostEntry) : HostEntry :=
  if e.node = .directory then Node.directory.fresh ⟨0⟩ else e

namespace HostTree

variable {t t' : HostTree} {dir place other : Place} {names : List String} {name base : String}
variable {now : Instant} {data : Bytes}

/-- What is kept at a place; the times of a directory are left out. -/
def kept? (t : HostTree) (place : Place) : Option HostEntry :=
  (t.find? place).map HostEntry.timeless

theorem kept?_put_of_ne (h : other ≠ place) (entry : HostEntry) :
    (t.put place entry).kept? other = t.kept? other := by
  rw [kept?, find?_put_of_ne t h, kept?]

/-- Nothing that is kept changes when a directory is marked as changed. -/
theorem kept?_touch (h : t.node? dir = some .directory) (place : Place) :
    (t.touch now dir).kept? place = t.kept? place := by
  rw [kept?, touch, find?_modify, kept?]
  split
  · rename_i heq
    rw [eq_of_beq heq]
    obtain ⟨entry, hfind, hnode⟩ := node?_eq_some.mp h
    simp [hfind, HostEntry.timeless, hnode]
  · rfl

/-- Marking a directory as changed changes the times of no other entry. -/
theorem find?_touch_of_ne (h : other ≠ dir) : (t.touch now dir).find? other = t.find? other := by
  rw [touch, find?_modify, if_neg (by simpa using h)]

/-- Nothing is different but the entry at a place and the directory that it stands in. -/
def Still (t t' : HostTree) (place : Place) : Prop :=
  ∀ other, other ≠ place → (∀ name, other ++ [name] ≠ place) → t'.find? other = t.find? other

/-- An entry that is put in a directory, which is marked as changed, leaves all others alone. -/
theorem still_of_find? (h : ∀ other, other ≠ dir ++ [name] → other ≠ dir →
    t'.find? other = t.find? other) : t.Still t' (dir ++ [name]) :=
  fun other hne hdir => h other hne fun heq => hdir name (by rw [heq])

/-! ## What is no directory -/

/-- A walk is not below a place, and comes to it only where it ends. -/
def Progress.Avoids (place : Place) : Progress → Prop
  | .at_ there => there = place ∨ ¬place <+: there
  | .link dir _ _ => ¬place <+: dir
  | .failed _ => True

theorem next_not_below (hdir : ¬place <+: dir) (name : String) :
    next dir name = place ∨ ¬place <+: next dir name := by
  unfold next
  split
  · exact .inr fun hp => hdir (hp.trans (List.dropLast_prefix dir))
  split
  · exact .inr hdir
  by_cases heq : dir ++ [name] = place
  · exact .inl heq
  refine .inr fun hp => ?_
  rcases List.prefix_concat_iff.mp hp with hsame | hp
  · exact heq hsame.symm
  · exact hdir hp

/-- No walk leads below what is no directory. -/
theorem avoids_advance (hnode : t.node? place ≠ some .directory) {follow : Bool}
    (hdir : ¬place <+: dir) : (t.advance follow dir names).Avoids place := by
  induction names generalizing dir with
  | nil => exact .inr hdir
  | cons name rest ih =>
    have hnext := next_not_below hdir name
    by_cases hnil : rest = []
    · subst hnil
      rw [advance_end]
      split
      · trivial
      split
      · split
        · exact hdir
        · exact hnext
      · exact hnext
    rw [advance_on hnil]
    split
    · trivial
    split
    · rename_i hdirectory
      exact ih (hnext.resolve_left fun heq => hnode (heq ▸ hdirectory))
    · exact hdir
    · trivial
    · trivial

/-- A way leads to what is no directory, or elsewhere, but never below it. -/
theorem placeOf_not_below (hnode : t.node? place ≠ some .directory) {follow : Bool}
    (hne : place ≠ []) (hp : t.placeOf follow names = .ok other) :
    other = place ∨ ¬place <+: other := by
  obtain ⟨-, hlocate⟩ := placeOf_eq_ok.mp hp
  have hroot : ¬place <+: ([] : Place) := fun h => hne (List.prefix_nil.mp h)
  suffices h : ∀ links (dir : Place) (names : List String), ¬place <+: dir →
      t.locate follow links dir names = .ok other → other = place ∨ ¬place <+: other from
    h _ _ _ hroot hlocate
  intro links dir names hdir h
  have hwalk : (t.advance follow dir names).Avoids place := avoids_advance hnode hdir
  fun_induction locate t follow links dir names with
  | case1 links dir names there hat =>
    cases h
    rwa [hat] at hwalk
  | case2 | case3 => cases h
  | case4 dir names here text rest hlink links ih =>
    rw [hlink] at hwalk
    have hstart : ¬place <+: linkStart here text := by
      unfold linkStart
      split
      · exact hroot
      · exact hwalk
    exact ih hstart h (avoids_advance hnode hstart)

/-! ## Replacing -/

/-- What a straight way below a base leads to is held by the directory before its last name. -/
theorem Base.append_of_holder (hb : t.Base base) (hs : t.Straight [base] names)
    (ho : ∀ n ∈ names, Ordinary n) (hh : t.holder (base :: names) = .ok (dir, name)) :
    dir ++ [name] = base :: names := by
  by_cases hne : names = []
  · subst hne
    exact append_of_holder_single hh
  · exact (hb.holder_place hs ho hne hh).1

/-- Replacing a file fails and changes nothing that is kept, or puts the file in the directory that
holds the last name. -/
theorem replaceFile_cases {r : Except HostError Unit}
    (h : t.replaceFile now names data = (r, t')) :
    (∃ e, r = .error e) ∧ (∀ place, t'.kept? place = t.kept? place) ∨
      r = .ok () ∧ ∃ dir name, t.holder names = .ok (dir, name) ∧
        t.limits.refusesName name = false ∧ t.node? (dir ++ [name]) ≠ some .directory ∧
        t' = (t.touch now dir).put (dir ++ [name]) ((Node.file data).fresh now) := by
  unfold replaceFile at h
  cases hh : t.holder names with
  | error e =>
    rw [hh] at h
    cases h
    exact .inl ⟨⟨e, rfl⟩, fun _ => rfl⟩
  | ok found =>
  obtain ⟨dir, name⟩ := found
  rw [hh] at h
  dsimp only at h
  have htouch : ∀ place, (t.touch now dir).kept? place = t.kept? place :=
    fun place => kept?_touch (node?_of_holder hh) place
  split at h
  · cases h
    exact .inl ⟨⟨_, rfl⟩, htouch⟩
  split at h
  · cases h
    exact .inl ⟨⟨_, rfl⟩, htouch⟩
  rename_i hname
  split at h
  · cases h
    exact .inl ⟨⟨_, rfl⟩, htouch⟩
  rename_i hfree
  cases h
  refine .inr ⟨rfl, dir, name, rfl, ?_, fun hnode => hfree ?_, rfl⟩
  · exact Bool.eq_false_iff.mpr hname
  · rwa [← node?, node?_touch]

/-- A file can be put where no directory stands. -/
theorem replaceFile_of_holder (hh : t.holder names = .ok (dir, name)) (hdots : isDots name = false)
    (hname : t.limits.refusesName name = false)
    (hfree : t.node? (dir ++ [name]) ≠ some .directory) :
    t.replaceFile now names data =
      (.ok (), (t.touch now dir).put (dir ++ [name]) ((Node.file data).fresh now)) := by
  have hfree' : ((t.touch now dir).find? (dir ++ [name])).map HostEntry.node ≠
      some .directory := by
    rwa [← node?, node?_touch]
  have hlimits : (t.touch now dir).limits.refusesName name = false := hname
  unfold replaceFile
  rw [hh]
  dsimp only
  rw [if_neg (by simp [hdots]), if_neg (by simp [hlimits])]
  split
  · rename_i hnode
    exact absurd hnode hfree'
  · rfl

/-- A new file is kept where no directory and another entry stood. -/
theorem kept?_put_ne {content : Bytes} (hfree : t.node? place ≠ some .directory)
    (hchanged : t.find? place ≠ some ((Node.file content).fresh now)) :
    (t'.put place ((Node.file content).fresh now)).kept? place ≠ t.kept? place := by
  have htimeless : ((Node.file content).fresh now).timeless = (Node.file content).fresh now := by
    simp [HostEntry.timeless, Node.fresh]
  rw [kept?, find?_put_self, Option.map_some, htimeless]
  intro hkept
  obtain ⟨entry, hfind, hentry⟩ := Option.map_eq_some_iff.mp hkept.symm
  have hnode : entry.node ≠ .directory := fun heq => hfree (by simp [node?, hfind, heq])
  rw [HostEntry.timeless, if_neg hnode] at hentry
  exact hchanged (hentry ▸ hfind)

/-- A replaced file changes nothing that is kept at other places. -/
theorem kept?_replaced (hdir : t.node? dir = some .directory) (hne : other ≠ place)
    (entry : HostEntry) : ((t.touch now dir).put place entry).kept? other = t.kept? other := by
  rw [kept?_put_of_ne hne, kept?_touch hdir]

/-! ## Appending -/

/-- Following the last name makes no difference when no link stands there. -/
theorem advance_follow (ho : ∀ n ∈ names, Ordinary n)
    (hl : ∀ text, t.node? (dir ++ names) ≠ some (.link text)) :
    t.advance true dir names = t.advance false dir names := by
  induction names generalizing dir with
  | nil => rfl
  | cons name rest ih =>
    have hname := ho name (by simp)
    by_cases hne : rest = []
    · subst hne
      rw [advance_last hname, advance_last hname]
      cases hnode : t.node? (dir ++ [name]) with
      | none => rfl
      | some node =>
        cases node with
        | link text => exact absurd hnode (hl text)
        | file | directory => rfl
    · rw [advance_cons hname hne, advance_cons hname hne,
        ih (fun n hn => ho n (by simp [hn])) (by simpa using hl)]

/-- A straight way to what is no link leads to the place that it spells. -/
theorem Base.place_eq_of_follow (hb : t.Base base) (hs : t.Straight [base] names)
    (ho : ∀ n ∈ names, Ordinary n) (hl : ∀ text, t.node? (base :: names) ≠ some (.link text))
    (hp : t.placeOf true (base :: names) = .ok place) : place = base :: names := by
  refine eq_of_placeOf ?_ hp
  by_cases hne : names = []
  · subst hne
    exact .inl (hb.advance_nil true)
  · rw [hb.advance true hne, advance_follow ho hl]
    exact hs.advance ho

/-- Appending nothing changes nothing. -/
theorem kept_append_nil (h : t.append now names [] = .ok t') (place : Place) :
    t'.kept? place = t.kept? place := by
  obtain ⟨there, content, accessed, modified, -, hfind, rfl⟩ := append_eq_ok h
  by_cases hplace : place = there
  · subst hplace
    simp [kept?, hfind]
  · exact kept?_put_of_ne hplace _

/-- Appending something changes the file that is found. -/
theorem kept_append_ne (h : t.append now names data = .ok t') (hdata : data ≠ [])
    (hp : t.placeOf true names = .ok place) : t'.kept? place ≠ t.kept? place := by
  obtain ⟨there, content, accessed, modified, hp', hfind, rfl⟩ := append_eq_ok h
  obtain rfl : place = there := Except.ok.inj (hp.symm.trans hp')
  simp [kept?, hfind, HostEntry.timeless, hdata]

end HostTree

/-! ## Disks -/

namespace Disk

variable {d d' : Disk} {now : Instant} {names : List String} {data : Bytes}

/-- A link in the place of the home leads the host to another directory, where it puts the file. -/
def DivertsWrite (d : Disk) (now : Instant) (path : String) (data : Bytes) : Prop :=
  ∃ way text dir name, d.way path = .ok way ∧ way ≠ [home] ∧
    d.tree.node? [home] = some (.link text) ∧ d.tree.holder way = .ok (dir, name) ∧
    d.tree.limits.refusesName name = false ∧
    d.tree.node? (dir ++ [name]) ≠ some .directory ∧
    d.tree.find? (dir ++ [name]) ≠ some ((Node.file data).fresh now)

/-- A link in the last place, or in the place of the home, leads the host to a file, to which it
appends. -/
def DivertsAppend (d : Disk) (path : String) (data : Bytes) : Prop :=
  data ≠ [] ∧ ∃ way text content, d.way path = .ok way ∧
    (d.tree.node? way = some (.link text) ∨ d.tree.node? [home] = some (.link text)) ∧
    d.content path = .ok content

section

variable {way : List String} (hn : ∀ n ∈ names, Ordinary n)
  (hway : d.way (rootText names) = .ok way) (hl : ∀ text, d.tree.node? [home] ≠ some (.link text))

include hn hway

theorem way_rootText : ∃ rest, way = home :: rest ∧ ∀ n ∈ rest, Ordinary n := by
  obtain ⟨p, hread, -, rfl⟩ := way_eq_ok.mp hway
  exact ⟨_, rfl, eq_of_read_rootText hn hread ▸ settle_ordinary hn⟩

include hl

/-- The last name of a way is held where the way says, unless a link has taken the place of the
home. -/
theorem append_of_holder {dir : Place} {name : String} (hh : d.tree.holder way = .ok (dir, name)) :
    dir ++ [name] = way := by
  obtain ⟨rest, rfl, ho⟩ := way_rootText hn hway
  by_cases hne : rest = []
  · subst hne
    exact HostTree.append_of_holder_single hh
  have hb : d.Homed := HostTree.base_of_holder home_ordinary hl hne hh
  obtain ⟨heq, hs⟩ := hb.way_eq hn hway
  obtain rfl := (List.cons.inj heq).2
  exact HostTree.Base.append_of_holder hb hs ho hh

/-- A way leads to the place that it spells, unless a link stands there or in the place of the
home. -/
theorem eq_way_of_placeOf {place : Place} (hplain : ∀ text, d.tree.node? way ≠ some (.link text))
    (hp : d.tree.placeOf true way = .ok place) : place = way := by
  obtain ⟨rest, rfl, ho⟩ := way_rootText hn hway
  by_cases hne : rest = []
  · subst hne
    exact HostTree.eq_of_placeOf (HostTree.endsAt_single home_ordinary hl) hp
  have hb : d.Homed := HostTree.base_of_placeOf home_ordinary hl hp fun h => absurd h hne
  obtain ⟨heq, hs⟩ := hb.way_eq hn hway
  obtain rfl := (List.cons.inj heq).2
  exact HostTree.Base.place_eq_of_follow hb hs ho hplain hp

end

/-- **Writing a file anew changes nothing but the entry at the place of its path**, and not even
that if it fails, unless a link in the place of the home leads elsewhere. -/
theorem kept_write (hn : ∀ n ∈ names, Ordinary n) {overwrite : Bool}
    (hno : ¬d.DivertsWrite now (rootText names) data) {r : Except Error Unit}
    (hw : d.write now (rootText names) data overwrite = (r, d')) :
    (∀ e, r = .error e → ∀ place, d'.tree.kept? place = d.tree.kept? place) ∧
      ∀ place, (∀ p, Path.read (rootText names) = .ok p → place ≠ home :: p.segments) →
        d'.tree.kept? place = d.tree.kept? place := by
  unfold Disk.write at hw
  cases hway : d.way (rootText names) with
  | error e =>
    rw [hway] at hw
    cases hw
    exact ⟨fun _ _ _ => rfl, fun _ _ => rfl⟩
  | ok way =>
  obtain ⟨p, hread, -, hspelt⟩ := way_eq_ok.mp hway
  rw [hway] at hw
  dsimp only at hw
  split at hw
  · cases hw
    exact ⟨fun _ _ _ => rfl, fun _ _ => rfl⟩
  rcases hrep : d.tree.replaceFile now way data with ⟨done, tree⟩
  rw [hrep] at hw
  obtain ⟨rfl, rfl⟩ := Prod.mk.inj hw
  rcases HostTree.replaceFile_cases hrep with
    ⟨⟨e, rfl⟩, hsame⟩ | ⟨rfl, dir, name, hh, hname, hfree, rfl⟩
  · exact ⟨fun _ _ => hsame, fun place _ => hsame place⟩
  refine ⟨fun e he => (nomatch he), fun place hne => ?_⟩
  have hdir := HostTree.node?_of_holder hh
  by_cases hplace : place = dir ++ [name]
  swap
  · exact HostTree.kept?_replaced hdir hplace _
  -- The host was led elsewhere, so the file has been there already.
  have helsewhere : dir ++ [name] ≠ way := by
    rw [← hplace, hspelt]
    exact hne p hread
  have hlink : ∃ text, d.tree.node? [home] = some (.link text) := by
    by_contra hplain
    exact helsewhere (append_of_holder hn hway (fun text hnode => hplain ⟨text, hnode⟩) hh)
  obtain ⟨text, hlink⟩ := hlink
  have hsame : d.tree.find? (dir ++ [name]) = some ((Node.file data).fresh now) := by
    by_contra hchanged
    refine hno ⟨way, text, dir, name, hway, fun hroot => ?_, hlink, hh, hname, hfree, hchanged⟩
    rw [hroot] at hh helsewhere
    exact helsewhere (HostTree.append_of_holder_single hh)
  rw [hplace, HostTree.kept?, HostTree.find?_put_self, HostTree.kept?, hsame]

/-- A file that the host is led to put elsewhere is new there. -/
theorem DivertsWrite.changes (hn : ∀ n ∈ names, Ordinary n)
    (h : d.DivertsWrite now (rootText names) data) {p : Path}
    (hread : Path.read (rootText names) = .ok p) :
    ∃ place, place ≠ home :: p.segments ∧
      (d.write now (rootText names) data true).2.tree.kept? place ≠ d.tree.kept? place := by
  obtain ⟨way, text, dir, name, hway, hne, hlink, hh, hname, hfree, hchanged⟩ := h
  obtain ⟨p', hread', -, hspelt⟩ := way_eq_ok.mp hway
  obtain rfl : p = p' := Except.ok.inj (hread.symm.trans hread')
  obtain ⟨rest, rfl, ho⟩ := way_rootText hn hway
  have hrest : rest ≠ [] := by simpa using hne
  obtain ⟨-, hp, hdir, hlast⟩ := HostTree.holder_eq_ok.mp hh
  have hdots : HostTree.isDots name = false := by
    obtain ⟨init, last, rfl⟩ := (List.eq_nil_or_concat' rest).resolve_left hrest
    rw [← List.cons_append, List.getLast?_concat] at hlast
    obtain rfl : last = name := hlast
    exact HostTree.isDots_of_ordinary (ho _ (by simp))
  refine ⟨dir ++ [name], fun heq => ?_, ?_⟩
  · -- Nothing below the home is reached, since the home is no directory.
    have hhome : d.tree.node? [home] ≠ some .directory := by simp [hlink]
    have hbelow : [home] <+: dir := by
      rw [← hspelt] at heq
      have hinit : dir = home :: rest.dropLast := by
        rw [← List.dropLast_cons_of_ne_nil hrest, ← heq, List.dropLast_concat]
      exact hinit ▸ ⟨rest.dropLast, rfl⟩
    rcases HostTree.placeOf_not_below hhome (by simp) hp with rfl | hout
    · exact hhome hdir
    · exact hout hbelow
  · have hrep : d.tree.replaceFile now (home :: rest) data =
        (.ok (), (d.tree.touch now dir).put (dir ++ [name]) ((Node.file data).fresh now)) :=
      HostTree.replaceFile_of_holder hh hdots hname hfree
    have hwrite : (d.write now (rootText names) data true).2.tree =
        (d.tree.touch now dir).put (dir ++ [name]) ((Node.file data).fresh now) := by
      unfold Disk.write
      rw [hway]
      dsimp only
      rw [hrep]
      rfl
    rw [hwrite]
    exact HostTree.kept?_put_ne hfree hchanged

/-- A file whose content can be read can be appended to. -/
theorem append_of_content {path : String} {content : Bytes} (hc : d.content path = .ok content)
    (now : Instant) (data : Bytes) : ∃ d', d.append now path data = .ok d' := by
  unfold Disk.content at hc
  obtain ⟨way, hway, hc⟩ := bind_eq_ok.mp hc
  have hread : d.tree.read way = .ok content := mapError_eq_ok.mp hc
  unfold HostTree.read at hread
  obtain ⟨⟨node, accessed, modified⟩, hstat, hread⟩ := bind_eq_ok.mp hread
  dsimp only at hread
  split at hread <;> cases hread
  obtain ⟨place, hp, hfind⟩ := HostTree.stat_eq_ok.mp hstat
  refine ⟨⟨d.tree.put place ⟨.file (content ++ data), accessed,
    if data.isEmpty then modified else now⟩⟩, ?_⟩
  unfold Disk.append
  simp only [hway, hstat, HostTree.append, hp, hfind, bind, Except.bind]
  rfl

/-- What can be appended to has content that can be read. -/
theorem content_of_append {path : String} (ha : d.append now path data = .ok d') :
    ∃ content, d.content path = .ok content := by
  unfold Disk.append at ha
  obtain ⟨way, hway, ha⟩ := bind_eq_ok.mp ha
  split at ha
  · rename_i content accessed modified hstat
    refine ⟨content, ?_⟩
    unfold Disk.content
    simp only [hway, HostTree.read, hstat, bind, Except.bind]
    rfl
  · cases ha
  · cases ha

/-- **Appending changes nothing but the entry at the place of the path**, unless a link leads
elsewhere. -/
theorem kept_append (hn : ∀ n ∈ names, Ordinary n)
    (hno : ¬d.DivertsAppend (rootText names) data)
    (ha : d.append now (rootText names) data = .ok d') (place : Place)
    (hne : ∀ p, Path.read (rootText names) = .ok p → place ≠ home :: p.segments) :
    d'.tree.kept? place = d.tree.kept? place := by
  obtain ⟨way, hway, happ⟩ := append_eq_ok ha
  obtain ⟨p, hread, -, hspelt⟩ := way_eq_ok.mp hway
  obtain ⟨content, hcontent⟩ := content_of_append ha
  by_cases hdata : data = []
  · exact HostTree.kept_append_nil (hdata ▸ happ) place
  have hplain : ∀ text, d.tree.node? way ≠ some (.link text) := fun text hnode =>
    hno ⟨hdata, way, text, content, hway, .inl hnode, hcontent⟩
  have hhome : ∀ text, d.tree.node? [home] ≠ some (.link text) := fun text hnode =>
    hno ⟨hdata, way, text, content, hway, .inr hnode, hcontent⟩
  obtain ⟨there, content, accessed, modified, hp, -, htree⟩ := HostTree.append_eq_ok happ
  obtain rfl := eq_way_of_placeOf hn hway hhome hplain hp
  rw [htree, HostTree.kept?_put_of_ne (hspelt ▸ hne p hread)]

/-- Bytes that the host is led to append elsewhere change a file there. -/
theorem DivertsAppend.changes {path : String} (h : d.DivertsAppend path data) (now : Instant)
    {p : Path} (hread : Path.read path = .ok p) :
    ∃ d' place, d.append now path data = .ok d' ∧ place ≠ home :: p.segments ∧
      d'.tree.kept? place ≠ d.tree.kept? place := by
  obtain ⟨hdata, way, text, content, hway, hlink, hcontent⟩ := h
  obtain ⟨p', hread', -, hspelt⟩ := way_eq_ok.mp hway
  obtain rfl : p = p' := Except.ok.inj (hread.symm.trans hread')
  obtain ⟨d', ha⟩ := append_of_content hcontent now data
  obtain ⟨way', hway', happ⟩ := append_eq_ok ha
  obtain rfl : way = way' := Except.ok.inj (hway.symm.trans hway')
  obtain ⟨place, content, accessed, modified, hp, hfind, -⟩ := HostTree.append_eq_ok happ
  refine ⟨d', place, ha, ?_, HostTree.kept_append_ne happ hdata hp⟩
  rw [← hspelt]
  rintro rfl
  rcases hlink with hlink | hlink
  · rw [HostTree.node?, hfind] at hlink
    cases hlink
  have hhome : d.tree.node? [home] ≠ some .directory := by simp [hlink]
  have hbelow : [home] <+: place := hspelt ▸ ⟨p.segments, rfl⟩
  rcases HostTree.placeOf_not_below hhome (by simp) hp with rfl | hout
  · rw [HostTree.node?, hfind] at hlink
    cases hlink
  · exact hout hbelow

end Disk

/-! ## Tables -/

namespace Table

variable {t t' : Table} {now : Instant} {key other path : String} {data : Bytes}

/-- What is kept under a key. -/
def rowsAt (t : Table) (key : String) : List Row := t.rows.filter (·.path == key)

theorem rowsAt_modify {f : Row → Row} (hf : ∀ r, (f r).path = r.path) (h : other ≠ key) :
    (t.modify key f).rowsAt other = t.rowsAt other := by
  have hpath : (fun r : Row => (if r.path == key then f r else r).path == other) =
      fun r : Row => r.path == other := by
    funext r
    split
    · rw [hf]
    · rfl
  have hkept : ∀ r ∈ t.rowsAt other, (if r.path == key then f r else r) = r := by
    intro r hr
    have hother : r.path = other := by simpa using (List.mem_filter.mp hr).2
    rw [if_neg (by simpa [hother] using h)]
  rw [rowsAt, rows_modify, List.filter_map, Function.comp_def, hpath]
  exact (List.map_congr_left hkept).trans (List.map_id' _)

theorem rowsAt_insert {kind : Kind} {content : Option Bytes} {target : Option String}
    (h : t.insert now key kind content target = .ok t') (hne : other ≠ key) :
    t'.rowsAt other = t.rowsAt other := by
  obtain ⟨row, hrows, hpath, -⟩ := rows_of_insert h
  have hrow : (row.path == other) = false := by simpa [hpath] using hne.symm
  rw [rowsAt, hrows, List.filter_append, rowsAt]
  simp [hrow]

/-- Writing a file anew changes nothing but the row under the key of its path. -/
theorem rowsAt_write {overwrite : Bool} (h : t.write now path data overwrite = .ok t') :
    ∃ key, Table.key path = .ok key ∧ ∀ other, other ≠ key → t'.rowsAt other = t.rowsAt other := by
  obtain ⟨key, hkey, hinsert | ⟨row, -, -, -, rfl⟩⟩ := write_cases h
  · exact ⟨key, hkey, fun other hne => rowsAt_insert hinsert hne⟩
  · exact ⟨key, hkey, fun other hne => rowsAt_modify (fun _ => rfl) hne⟩

/-- Appending changes nothing but the row under the key of the path. -/
theorem rowsAt_append (h : t.append now path data = .ok t') :
    ∃ key, Table.key path = .ok key ∧ ∀ other, other ≠ key → t'.rowsAt other = t.rowsAt other := by
  obtain ⟨key, row, hkey, -, -, rfl⟩ := append_eq_ok h
  exact ⟨key, hkey, fun other hne => rowsAt_modify (fun _ => rfl) hne⟩

end Table

end MountSpace
