import MountSpace.Proofs.Resolve.Names
import MountSpace.Proofs.Store.Rows
import MountSpace.Proofs.Store.Walks
import Mathlib.Data.List.Nodup

/-!
# Catalogues

What a store keeps, whatever way it keeps it: a node under each list of names.  A host directory
and a table come to the same as long as names are tame, so that the text of a path is read as the
path and the case of letters makes no difference, and paths are not too long to be read.

## Main definitions

* `Tame` — a name that every store keeps as it is.
* `Storable` — names under which every store keeps an entry.
* `Catalogue` — the nodes under names, each in a directory.
* `Catalogue.put`, `Catalogue.prune`, `Catalogue.move` — what operations make of a catalogue.
* `Catalogue.status` — what is reported of the entry under names, its times aside.
* `Catalogue.Lists` — what comes of listing a directory.
-/

namespace MountSpace

open MountSpace.Path

/-! ## Names -/

/-- A name that every store keeps as it is: without a blank at its end, capitals or refused
characters, and not too long. -/
structure Tame (n : String) : Prop where
  solid : ¬EndsBlank n
  lower : n.toList.map Char.toLower = n.toList
  short : n.length ≤ maxNameLength
  clean : ∀ c ∈ n.toList, isRefused c = false

/-- Tame names, each leading one step down. -/
def Neat (names : List String) : Prop := ∀ n ∈ names, Ordinary n ∧ Tame n

/-- Names under which every store keeps an entry: their path can be read. -/
structure Storable (names : List String) : Prop where
  neat : Neat names
  legible : (rootText names).length ≤ maxTextLength

variable {names other front more rest S D : List String} {name text : String} {node : Node}

theorem neat_nil : Neat [] := List.forall_mem_nil _

theorem Neat.ordinary (h : Neat names) : ∀ n ∈ names, Ordinary n := fun n hn => (h n hn).1

theorem Neat.of_prefix (h : Neat names) (hf : front <+: names) : Neat front :=
  fun n hn => h n (hf.subset hn)

theorem Neat.append (h : Neat front) (h' : Neat rest) : Neat (front ++ rest) :=
  fun n hn => (List.mem_append.mp hn).elim (h n) (h' n)

theorem Neat.of_append_right (h : Neat (front ++ rest)) : Neat rest :=
  fun n hn => h n (List.mem_append_right _ hn)

theorem Neat.settle_eq (h : Neat names) : settle names = names :=
  settle_of_not_endsBlank h.ordinary fun n hn => (h n hn).2.solid

/-- The path of neat names is read as their path, if it is read at all. -/
theorem Neat.eq_of_read (h : Neat names) {p : Path} (hp : Path.read (rootText names) = .ok p) :
    p = ⟨{}, names, true⟩ := by
  rw [eq_of_read_rootText h.ordinary hp, h.settle_eq]

theorem storable_of_read (h : Neat names) {p : Path} (hp : Path.read (rootText names) = .ok p) :
    Storable names :=
  ⟨h, (textFault?_eq_none_iff.mp (parse_eq_ok_iff.mp (mapError_eq_ok.mp hp)).1).2⟩

theorem Storable.read (h : Storable names) :
    Path.read (rootText names) = .ok ⟨{}, names, true⟩ := by
  have hchars : ∀ c ∈ (rootText names).toList, isRefused c = false :=
    isRefused_text (p := ⟨{}, names, true⟩) ⟨by simp, by simp⟩
      fun n hn => ⟨(h.neat n hn).2.short, (h.neat n hn).2.clean⟩
  refine mapError_eq_ok.mpr (parse_eq_ok_iff.mpr ⟨textFault?_eq_none_iff.mpr ⟨hchars, h.legible⟩,
    ?_, fun n hn => (h.neat n hn).2.short, fun hrel => nomatch hrel⟩)
  rw [toPath_rootText h.neat.ordinary, h.neat.settle_eq]

theorem Storable.of_prefix (h : Storable names) (hf : front <+: names) : Storable front := by
  obtain ⟨more, rfl⟩ := hf
  refine ⟨h.neat.of_prefix (List.prefix_append _ _), ?_⟩
  have hlen := (rootText_prefix_append front more).length_le
  simp only [String.length_toList] at hlen
  exact hlen.trans h.legible

/-! ## Catalogues -/

/-- What is kept under names: from the root on, everything is in a directory, and every link has a
text that leads to tame names. -/
@[ext]
structure Catalogue where
  /-- What is kept under the names. -/
  node? : List String → Option Node
  /-- The root is a directory. -/
  root : node? [] = some .directory
  /-- Whatever is kept is in a directory. -/
  held : ∀ names name, node? (names ++ [name]) ≠ none → node? names = some .directory
  /-- Every store can keep it. -/
  storable : ∀ names, node? names ≠ none → Storable names
  /-- Links lead to tame names. -/
  texts : ∀ names text, node? names = some (.link text) → text ≠ "" ∧ Says Tame text

namespace Catalogue

/-- Nothing but the root. -/
def empty : Catalogue where
  node? names := if names = [] then some .directory else none
  root := rfl
  held names name h := absurd (if_neg (by simp)) h
  storable names h := by
    obtain rfl : names = [] := by
      by_contra hne
      exact h (if_neg hne)
    exact ⟨neat_nil, by decide⟩
  texts names text h := by split at h <;> cases h

theorem node?_empty (names : List String) :
    empty.node? names = if names = [] then some .directory else none := rfl

variable (c : Catalogue)

/-- On the way to what is kept there are directories. -/
theorem directory_of_append (h : c.node? (front ++ rest) ≠ none) (hne : rest ≠ []) :
    c.node? front = some .directory := by
  induction rest using List.reverseRecOn with
  | nil => exact absurd rfl hne
  | append_singleton rest last ih =>
    rw [← List.append_assoc] at h
    have hdir := c.held _ _ h
    by_cases hnil : rest = []
    · rwa [hnil, List.append_nil] at hdir
    · exact ih (by simp [hdir]) hnil

theorem directory_of_prefix (h : c.node? names = some .directory) (hf : front <+: names) :
    c.node? front = some .directory := by
  obtain ⟨rest, rfl⟩ := hf
  by_cases hnil : rest = []
  · rwa [hnil, List.append_nil] at h
  · exact c.directory_of_append (by simp [h]) hnil

/-- Nothing is kept below what is missing. -/
theorem none_of_append (h : c.node? front = none) (rest : List String) :
    c.node? (front ++ rest) = none := by
  by_contra hthere
  by_cases hnil : rest = []
  · rw [hnil, List.append_nil] at hthere
    exact hthere h
  · rw [c.directory_of_append hthere hnil] at h
    cases h

/-- What is kept, or could be, is in a directory. -/
theorem directory_of_dropLast (h : c.node? names ≠ none) :
    c.node? names.dropLast = some .directory := by
  rcases List.eq_nil_or_concat' names with rfl | ⟨front, name, rfl⟩
  · exact c.root
  · rw [List.dropLast_concat]
    exact c.held _ _ h

/-! ## Putting -/

/-- There is a directory for a node, and no directory where it is to be kept. -/
structure Room (names : List String) (node : Node) : Prop where
  ne_nil : names ≠ []
  storable : Storable names
  dir : c.node? names.dropLast = some .directory
  free : c.node? names ≠ some .directory
  texts : ∀ text, node = .link text → text ≠ "" ∧ Says Tame text

variable {c}

/-- Where no directory is kept, the names lead below the root. -/
theorem ne_nil_of_free (hfree : c.node? names ≠ some .directory) : names ≠ [] :=
  fun hnil => hfree (hnil ▸ c.root)

theorem Room.of_free (hs : Storable names) (hdir : c.node? names.dropLast = some .directory)
    (hfree : c.node? names ≠ some .directory)
    (htexts : ∀ text, node = .link text → text ≠ "" ∧ Says Tame text) : c.Room names node :=
  ⟨ne_nil_of_free hfree, hs, hdir, hfree, htexts⟩

/-- The catalogue with a node in the place of what was kept under its names. -/
def put (names : List String) (node : Node) (h : c.Room names node) : Catalogue where
  node? other := if other = names then some node else c.node? other
  root := by rw [if_neg h.ne_nil.symm, c.root]
  held other name hthere := by
    have hdir : c.node? other = some .directory := by
      by_cases heq : other ++ [name] = names
      · have hd := h.dir
        rwa [← heq, List.dropLast_concat] at hd
      · rw [if_neg heq] at hthere
        exact c.held _ _ hthere
    rw [if_neg, hdir]
    rintro rfl
    exact h.free hdir
  storable other hthere := by
    by_cases heq : other = names
    · rw [heq]
      exact h.storable
    · rw [if_neg heq] at hthere
      exact c.storable _ hthere
  texts other text htext := by
    by_cases heq : other = names
    · rw [if_pos heq] at htext
      exact h.texts text (Option.some.inj htext)
    · rw [if_neg heq] at htext
      exact c.texts _ _ htext

theorem node?_put (h : c.Room names node) (other : List String) :
    (put names node h).node? other = if other = names then some node else c.node? other := rfl

/-! ## Taking away -/

/-- The catalogue without what is kept under names, and below them. -/
def prune (c : Catalogue) (names : List String) (h : names ≠ []) : Catalogue where
  node? other := if names <+: other then none else c.node? other
  root := by rw [if_neg (by simpa using h), c.root]
  held other name hthere := by
    have hout : ¬names <+: other ++ [name] := fun hp => hthere (if_pos hp)
    rw [if_neg hout] at hthere
    rw [if_neg fun hp => hout (hp.trans (List.prefix_append _ _)), c.held _ _ hthere]
  storable other hthere := by
    have hout : ¬names <+: other := fun hp => hthere (if_pos hp)
    rw [if_neg hout] at hthere
    exact c.storable _ hthere
  texts other text htext := by
    have hout : ¬names <+: other := fun hp => nomatch (if_pos hp).symm.trans htext
    rw [if_neg hout] at htext
    exact c.texts _ _ htext

theorem node?_prune (h : names ≠ []) (other : List String) :
    (c.prune names h).node? other = if names <+: other then none else c.node? other := rfl

/-- Where nothing is kept, there is nothing to take away. -/
theorem prune_of_none (h : names ≠ []) (hnone : c.node? names = none) : c.prune names h = c := by
  refine Catalogue.ext (funext fun other => ?_)
  rw [node?_prune]
  split
  · rename_i hp
    obtain ⟨rest, rfl⟩ := hp
    exact (c.none_of_append hnone rest).symm
  · rfl

/-! ## Moving -/

/-- There is a free place at `D`, apart from what is kept under `S`. -/
structure Clear (c : Catalogue) (S D : List String) : Prop where
  src : ¬S <+: D
  dest : ¬D <+: S
  dir : c.node? D.dropLast = some .directory
  free : c.node? D = none

/-- What is kept under `S` can be moved to `D`. -/
structure Passage (c : Catalogue) (S D : List String) : Prop extends c.Clear S D where
  storable : ∀ rest, c.node? (S ++ rest) ≠ none → Storable (D ++ rest)

theorem Clear.src_ne (h : c.Clear S D) : S ≠ [] := fun hnil => h.src (hnil ▸ List.nil_prefix)

theorem Clear.dest_ne (h : c.Clear S D) : D ≠ [] := fun hnil => h.dest (hnil ▸ List.nil_prefix)

/-- What is kept under `S` can be moved to another place that holds nothing and is not below it. -/
theorem clear_of_empty {S D : List String} (hthere : c.node? S ≠ none)
    (hinto : ¬S <+: D) (hother : S ≠ D) (hparent : c.node? D.dropLast = some .directory)
    (hempty : c.node? D = some .directory → ∀ name, c.node? (D ++ [name]) = none) :
    ∃ hne : D ≠ [], (c.prune D hne).Clear S D := by
  have hbelow : ¬D <+: S := by
    rintro ⟨rest, rfl⟩
    cases rest with
    | nil => exact hother (List.append_nil D)
    | cons name more =>
      have hdir := c.directory_of_append hthere (List.cons_ne_nil name more)
      refine hthere ?_
      have hnone := c.none_of_append (hempty hdir name) more
      rwa [List.append_assoc] at hnone
  have hne : D ≠ [] := fun hnil => hbelow (hnil ▸ List.nil_prefix)
  refine ⟨hne, hinto, hbelow, ?_, ?_⟩
  · rw [Catalogue.node?_prune, if_neg, hparent]
    intro hp
    have hlen := hp.length_le
    rw [List.length_dropLast] at hlen
    have hpos := List.length_pos_iff.mpr hne
    omega
  · rw [Catalogue.node?_prune, if_pos List.prefix_rfl]

/-- The catalogue with everything from `S` on under `D`. -/
def move (S D : List String) (h : c.Passage S D) : Catalogue where
  node? other := if D <+: other then c.node? (S ++ other.drop D.length)
    else if S <+: other then none else c.node? other
  root := by rw [if_neg (by simpa using h.dest_ne), if_neg (by simpa using h.src_ne), c.root]
  held other name hthere := by
    by_cases hD : D <+: other
    · obtain ⟨rest, rfl⟩ := hD
      rw [List.append_assoc, if_pos (List.prefix_append _ _), List.drop_left,
        ← List.append_assoc] at hthere
      rw [if_pos (List.prefix_append _ _), List.drop_left]
      exact c.held _ _ hthere
    rw [if_neg hD]
    by_cases hend : D <+: other ++ [name]
    · -- The entry is the one that arrives, in the directory of its destination.
      obtain rfl : D = other ++ [name] := (List.prefix_concat_iff.mp hend).resolve_right hD
      have hdir := h.dir
      rw [List.dropLast_concat] at hdir
      rw [if_neg fun hp => h.src (hp.trans (List.prefix_append _ _)), hdir]
    · rw [if_neg hend] at hthere
      have hS : ¬S <+: other ++ [name] := fun hp => hthere (if_pos hp)
      rw [if_neg hS] at hthere
      rw [if_neg fun hp => hS (hp.trans (List.prefix_append _ _)), c.held _ _ hthere]
  storable other hthere := by
    by_cases hD : D <+: other
    · obtain ⟨rest, rfl⟩ := hD
      rw [if_pos (List.prefix_append _ _), List.drop_left] at hthere
      exact h.storable rest hthere
    · rw [if_neg hD] at hthere
      have hS : ¬S <+: other := fun hp => hthere (if_pos hp)
      rw [if_neg hS] at hthere
      exact c.storable _ hthere
  texts other text htext := by
    by_cases hD : D <+: other
    · rw [if_pos hD] at htext
      exact c.texts _ _ htext
    · rw [if_neg hD] at htext
      have hS : ¬S <+: other := fun hp => nomatch (if_pos hp).symm.trans htext
      rw [if_neg hS] at htext
      exact c.texts _ _ htext

theorem node?_move (h : c.Passage S D) (other : List String) : (move S D h).node? other =
    if D <+: other then c.node? (S ++ other.drop D.length)
    else if S <+: other then none else c.node? other := rfl

/-- What is kept after a move is what was kept before, from `S` on under its new names. -/
theorem move_eq_some_iff (h : c.Passage S D) : (move S D h).node? other = some node ↔
    ∃ old, c.node? old = some node ∧ HostTree.rebase S D old = other := by
  rw [node?_move]
  constructor
  · intro hnode
    by_cases hD : D <+: other
    · obtain ⟨rest, rfl⟩ := hD
      rw [if_pos (List.prefix_append _ _), List.drop_left] at hnode
      exact ⟨_, hnode, HostTree.rebase_append S D rest⟩
    rw [if_neg hD] at hnode
    have hS : ¬S <+: other := fun hp => nomatch (if_pos hp).symm.trans hnode
    rw [if_neg hS] at hnode
    exact ⟨other, hnode, HostTree.rebase_of_not_below hS⟩
  · rintro ⟨old, hnode, rfl⟩
    by_cases hS : S <+: old
    · obtain ⟨rest, rfl⟩ := hS
      rwa [HostTree.rebase_append, if_pos (List.prefix_append _ _), List.drop_left]
    · have hD : ¬D <+: old := by
        rintro ⟨rest, rfl⟩
        rw [c.none_of_append h.free rest] at hnode
        cases hnode
      rwa [HostTree.rebase_of_not_below hS, if_neg hD, if_neg hS]

end Catalogue

/-! ## Reports -/

/-- The status without its times. -/
def Status.untimed (s : Status) : Status := { s with accessed := none, modified := none }

/-- What is reported of a node at a path, its times aside. -/
def Node.told (node : Node) (p : Path) : Except Error Status :=
  match node with
  | .file content => .ok { path := p, kind := .file, size := content.length }
  | .directory => .ok { path := p, kind := .directory }
  | .link text => do return { path := p, kind := .link, target := some (← Path.read text) }

/-- What is reported of the entry under names, its times aside. -/
def Catalogue.status (c : Catalogue) (names : List String) : Except Error (Option Status) := do
  let p ← Path.read (rootText names)
  match c.node? names with
  | none => return none
  | some node => return some (← node.told p)

variable {p : Path} {st : Status} {e : Error}

@[simp] theorem Status.untimed_path (s : Status) : s.untimed.path = s.path := rfl

@[simp] theorem Status.untimed_kind (s : Status) : s.untimed.kind = s.kind := rfl

@[simp] theorem Status.untimed_target (s : Status) : s.untimed.target = s.target := rfl

theorem Node.path_of_told (h : node.told p = .ok st) : st.path = p := by
  cases node with
  | file | directory => cases h; rfl
  | link text =>
    obtain ⟨target, -, h⟩ := bind_eq_ok.mp h
    cases h
    rfl

/-- A node is not reported when the text of a link cannot be read. -/
theorem Node.kind_of_told (h : node.told p = .error e) : e.kind = .invalidPath := by
  cases node with
  | file | directory => cases h
  | link text =>
    change (Path.parse text).mapError .invalidPath >>= _ = .error e at h
    cases hparse : Path.parse text with
    | error cause =>
      rw [hparse] at h
      cases h
      rfl
    | ok target =>
      rw [hparse] at h
      cases h

/-! ## Listings -/

/-- What comes of listing a directory: all its entries by name, or a failure because one of them
cannot be reported. -/
inductive Catalogue.Lists (c : Catalogue) (names : List String) :
    Except Error (List Status) → Prop
  | ok {l : List Status} (sorted : l.Pairwise fun a b => a.path.name ≤ b.path.name)
      (nodup : (l.map Status.untimed).Nodup)
      (mem : ∀ st, st ∈ l.map Status.untimed ↔ ∃ name node,
        c.node? (names ++ [name]) = some node ∧ node.told ⟨{}, names ++ [name], true⟩ = .ok st)
      (all : ∀ name node, c.node? (names ++ [name]) = some node →
        ∃ st, node.told ⟨{}, names ++ [name], true⟩ = .ok st) : Lists c names (.ok l)
  | error {e : Error} (kind : e.kind = .invalidPath) (bad : ∃ name node e,
      c.node? (names ++ [name]) = some node ∧
        node.told ⟨{}, names ++ [name], true⟩ = .error e) : Lists c names (.error e)

namespace Catalogue.Lists

variable {c : Catalogue}

theorem name_child (names : List String) (name : String) :
    (⟨{}, names ++ [name], true⟩ : Path).name = name := by
  simp [Path.name]

/-- Where no entry is listed, nothing is kept. -/
theorem none_of_nil (h : c.Lists names (.ok [])) (name : String) :
    c.node? (names ++ [name]) = none := by
  cases h with
  | ok _ _ mem all =>
    by_contra hthere
    obtain ⟨node, hnode⟩ := Option.ne_none_iff_exists'.mp hthere
    obtain ⟨st, hst⟩ := all name node hnode
    exact List.not_mem_nil ((mem st).mpr ⟨name, node, hnode, hst⟩)

/-- What is sorted by name is in the order of the names. -/
theorem pairwise_mergeSort_name {α : Type} (nameOf : α → String) (xs : List α) :
    (xs.mergeSort fun a b => nameOf a ≤ nameOf b).Pairwise fun a b => nameOf a ≤ nameOf b := by
  refine (List.pairwise_mergeSort ?_ ?_ xs).imp fun hle => by simpa using hle
  · intro a b e hab hbe
    simp only [decide_eq_true_eq] at hab hbe ⊢
    exact String.le_trans hab hbe
  · intro a b
    simpa using String.le_total (nameOf a) (nameOf b)

section Items

variable {ι : Type} {items : List ι} {nameOf : ι → String} {nodeOf : ι → Node}
  {f : ι → Except Error Status} {ys l : List Status}
  (hf : ∀ i ∈ items, Status.untimed <$> f i = (nodeOf i).told ⟨{}, names ++ [nameOf i], true⟩)

include hf

/-- Each entry that a store goes through is reported as what it is. -/
theorem told_of_mapM (h : items.mapM f = .ok ys) :
    List.Forall₂ (fun i st => i ∈ items ∧
      (nodeOf i).told ⟨{}, names ++ [nameOf i], true⟩ = .ok st.untimed) items ys := by
  refine List.forall₂_iff_get.mpr ⟨(forall₂_of_mapM h).length_eq, fun n hi hn => ?_⟩
  have hmem := List.get_mem items ⟨n, hi⟩
  refine ⟨hmem, ?_⟩
  rw [← hf _ hmem, (forall₂_of_mapM h).get hi hn]
  rfl

theorem names_of_mapM (h : items.mapM f = .ok ys) :
    ys.map (fun st => st.path.name) = items.map nameOf := by
  have hsame : List.Forall₂ (· = ·) (items.map nameOf) (ys.map fun st => st.path.name) := by
    refine List.forall₂_map_left_iff.mpr (List.forall₂_map_right_iff.mpr ?_)
    refine (told_of_mapM hf h).imp fun i st hpair => ?_
    rw [← Status.untimed_path, Node.path_of_told hpair.2, name_child]
  rw [List.forall₂_eq_eq_eq] at hsame
  exact hsame.symm

variable (hitems : ∀ name node, c.node? (names ++ [name]) = some node ↔
  ∃ i ∈ items, nameOf i = name ∧ nodeOf i = node)

include hitems

/-- A store lists a directory that goes through the entries in it, one after the other. -/
theorem of_items (hnodup : (items.map nameOf).Nodup) (h : items.mapM f = .ok ys)
    (hperm : l.Perm ys) (hsorted : l.Pairwise fun a b => a.path.name ≤ b.path.name) :
    c.Lists names (.ok l) := by
  have htold := told_of_mapM hf h
  have hmem : ∀ st, st ∈ ys.map Status.untimed ↔ ∃ name node,
      c.node? (names ++ [name]) = some node ∧
        node.told ⟨{}, names ++ [name], true⟩ = .ok st := by
    intro st
    rw [List.mem_map]
    constructor
    · rintro ⟨timed, htimed, rfl⟩
      obtain ⟨i, -, hi, hst⟩ := Table.exists_left_of_forall₂ htold htimed
      exact ⟨nameOf i, nodeOf i, (hitems _ _).mpr ⟨i, hi, rfl, rfl⟩, hst⟩
    · rintro ⟨name, node, hnode, hst⟩
      obtain ⟨i, hi, rfl, rfl⟩ := (hitems _ _).mp hnode
      obtain ⟨timed, htimed, -, hst'⟩ := Table.exists_right_of_forall₂ htold hi
      rw [hst] at hst'
      exact ⟨timed, htimed, (Except.ok.inj hst').symm⟩
  have hpermUntimed := hperm.map Status.untimed
  refine .ok hsorted (hpermUntimed.nodup_iff.mpr ?_) (fun st => ?_) fun name node hnode => ?_
  · refine List.Nodup.of_map (fun st : Status => st.path.name) ?_
    rw [List.map_map]
    exact names_of_mapM hf h ▸ hnodup
  · rw [hpermUntimed.mem_iff]
    exact hmem st
  · obtain ⟨i, hi, rfl, rfl⟩ := (hitems _ _).mp hnode
    obtain ⟨timed, -, -, hst⟩ := Table.exists_right_of_forall₂ htold hi
    exact ⟨_, hst⟩

/-- It fails when one of them cannot be reported. -/
theorem of_items_error (h : items.mapM f = .error e) : c.Lists names (.error e) := by
  obtain ⟨i, hi, hfail⟩ : ∃ i ∈ items, f i = .error e := exists_error_of_mapM h
  have htold : (nodeOf i).told ⟨{}, names ++ [nameOf i], true⟩ = .error e := by
    rw [← hf i hi, hfail]
    rfl
  exact .error (Node.kind_of_told htold)
    ⟨nameOf i, nodeOf i, e, (hitems _ _).mpr ⟨i, hi, rfl, rfl⟩, htold⟩

end Items

end Catalogue.Lists

end MountSpace
