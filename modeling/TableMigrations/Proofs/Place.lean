/-
  TableMigrations.Proofs.Place — where the paths to a database lead, and the free places beside its file.

  A path is followed by what stands in the tree; what the files hold does not matter (`walk_congr`). Where it ends, the
  directories on the way are found again by their own names (`walk_place`), so the file there and the places beside it
  can be reached directly. A `Site` is a database's file with nothing beside it. The files that a connection makes there
  and takes away again leave no trace (`Site.nodes_unlink_files`).
-/
import TableMigrations.Files.Place
import TableMigrations.Proofs.SortedMap

namespace TableMigrations

namespace FileTree

/-! ## what paths depend on -/

section

variable {t u : FileTree} (h : t.nodes = u.nodes)

include h

theorem node?_congr (l : Location) : t.node? l = u.node? l := by
  unfold node?
  rw [h]

theorem walk_congr (e : Ending) (links : Nat) (here : Location) (names : List String) :
    t.walk e links here names = u.walk e links here names := by
  have hnode := node?_congr h
  fun_induction t.walk e links here names <;> grind [walk]

theorem stands_congr (l : Location) : t.stands l = u.stands l := by
  unfold stands
  rw [walk_congr h]

theorem locate_congr (links : Nat) (here : Location) (names : List String) :
    Place.locate t links here names = Place.locate u links here names := by
  have hnode := node?_congr h
  have hwalk := walk_congr h
  fun_induction Place.locate t links here names <;> grind [Place.locate]

theorem ofPath_congr (hh : t.here = u.here) (path : String) : Place.ofPath t path = Place.ofPath u path := by
  unfold Place.ofPath startOf
  simp only [hh, locate_congr h, walk_congr h]

end

variable {t : FileTree}

/-! ## straight ways -/

structure IsName (name : String) : Prop where
  ne_empty : name ≠ ""
  ne_dot : name ≠ "."
  ne_dots : name ≠ ".."
  size_le : name.utf8ByteSize ≤ maxNameSize

/-- Whether a walk from the root passes through a location and all that lead to it. -/
def Straight (t : FileTree) (l : Location) : Prop :=
  ∀ p, p <+: l → ∀ e links rest, t.walk e links [] (p ++ rest) = t.walk e links p rest

theorem straight_root : t.Straight [] := by
  intro p hp e links rest
  obtain rfl := List.prefix_nil.mp hp
  rfl

theorem Straight.dropLast {l : Location} (h : t.Straight l) : t.Straight l.dropLast := by
  intro p hp
  exact h p (hp.trans l.dropLast_prefix)

theorem walk_name {here : Location} {name : String} (hn : IsName name) (e : Ending) (links : Nat) (rest : List String) :
    t.walk e links here (name :: rest) =
      match t.node? (here ++ [name]) with
      | none => if rest = [] ∧ e = .place then .ok (here ++ [name]) else .error .notFound
      | some .directory => t.walk e links (here ++ [name]) rest
      | some (.file _) => if rest = [] then .ok (here ++ [name]) else .error .notADirectory
      | some (.link target) =>
        if rest = [] ∧ e = .itself then .ok (here ++ [name])
        else match links with
          | 0 => .error .tooManyLinks
          | links + 1 => t.walk e links (if isAbsolute target then [] else here) (names target ++ rest) := by
  have hsize := Nat.not_lt.mpr hn.size_le
  rcases hnode : t.node? (here ++ [name]) with _ | ⟨n⟩ | - | target
  case some.link => cases links <;> simp [walk, hn.ne_empty, hn.ne_dot, hn.ne_dots, hsize, hnode]
  all_goals simp [walk, hn.ne_empty, hn.ne_dot, hn.ne_dots, hsize, hnode]

theorem Straight.snoc {l : Location} {name : String} (h : t.Straight l) (hn : IsName name)
    (hd : t.node? (l ++ [name]) = some .directory) : t.Straight (l ++ [name]) := by
  intro p hp e links rest
  rcases List.prefix_concat_iff.mp hp with rfl | hp
  · rw [List.append_assoc, h l List.prefix_rfl, List.singleton_append, walk_name hn, hd]
  · exact h p hp e links rest

/-- Where a walk without links ends, the way there is straight. -/
theorem walk_place {here l : Location} {names : List String} (hs : t.Straight here) (hn : ∀ name ∈ here, IsName name)
    (h : t.walk .place 0 here names = .ok l) : t.Straight l.dropLast ∧ ∀ name ∈ l, IsName name := by
  induction names generalizing here with
  | nil =>
    rw [walk] at h
    cases h
    exact ⟨hs.dropLast, hn⟩
  | cons name rest ih =>
    rw [walk] at h
    split at h
    next => exact ih hs hn h
    next hplain =>
    split at h
    next =>
      refine ih hs.dropLast ?_ h
      intro name hm
      exact hn name (List.mem_of_mem_dropLast hm)
    next hdots =>
    split at h
    next => cases h
    next hsize =>
    have hname : IsName name := by
      push Not at hplain hsize
      exact ⟨hplain.1, hplain.2, hdots, hsize⟩
    have hnames : ∀ x ∈ here ++ [name], IsName x := by
      intro x hx
      rcases List.mem_append.mp hx with hx | hx
      · exact hn x hx
      · rw [List.mem_singleton.mp hx]
        exact hname
    have hend : here ++ [name] = l → t.Straight l.dropLast ∧ ∀ x ∈ l, IsName x := by
      rintro rfl
      rw [List.dropLast_concat]
      exact ⟨hs, hnames⟩
    -- what stands there: nothing, a directory, a file, or a link, which is not followed
    split at h
    · split at h
      · exact hend (Except.ok.inj h)
      · cases h
    · rename_i hd
      exact ih (hs.snoc hname hd) hnames h
    · split at h
      · exact hend (Except.ok.inj h)
      · cases h
    · split at h
      · exact hend (Except.ok.inj h)
      · cases h

theorem Straight.walk_file {d : Location} {name : String} {n : Nat} (h : t.Straight d) (hn : IsName name)
    (hf : t.node? (d ++ [name]) = some (.file n)) (links : Nat) :
    t.walk .target links [] (d ++ [name]) = .ok (d ++ [name]) := by
  rw [h d List.prefix_rfl, walk_name hn, hf]
  rfl

theorem Straight.walk_missing {d : Location} {name : String} (h : t.Straight d) (hn : IsName name)
    (hm : t.node? (d ++ [name]) = none) (links : Nat) :
    t.walk .target links [] (d ++ [name]) = .error .notFound := by
  rw [h d List.prefix_rfl, walk_name hn, hm]
  rfl

end FileTree

/-! ## changes to a tree -/

namespace FileTree

variable {t : FileTree} {l j : Location}

theorem node?_addFile_self (h : l ≠ []) (c : Content) : (t.addFile l c).node? l = some (.file t.contents.size) := by
  rw [node?, if_neg h]
  exact t.nodes.get?_insert_self l _

theorem size_addFile (l : Location) (c : Content) : (t.addFile l c).contents.size = t.contents.size + 1 := by
  simp [addFile]

theorem content_addFile_self (c : Content) : (t.addFile l c).content t.contents.size = c := by
  simp [content, addFile]

theorem content_addFile_lt {n : Nat} (h : n < t.contents.size) (c : Content) :
    (t.addFile l c).content n = t.content n := by
  simp [content, addFile, Array.getElem?_push, Nat.ne_of_lt h]

theorem content_setContent_self {n : Nat} (h : n < t.contents.size) (c : Content) :
    (t.setContent n c).content n = c := by
  simp [content, setContent, h]

theorem content_setContent_ne {m n : Nat} (h : m ≠ n) (c : Content) : (t.setContent n c).content m = t.content m := by
  simp [content, setContent, Array.getElem?_setIfInBounds_ne h.symm]

theorem size_setContent (n : Nat) (c : Content) : (t.setContent n c).contents.size = t.contents.size := by
  simp [setContent]

theorem contents_unlink (l : Location) : (t.unlink l).contents = t.contents := by
  unfold unlink
  split <;> rfl

theorem here_unlink (l : Location) : (t.unlink l).here = t.here := by
  unfold unlink
  split <;> rfl

theorem content_unlink (l : Location) (n : Nat) : (t.unlink l).content n = t.content n := by
  unfold content
  rw [contents_unlink]

theorem openOrMake_of_none (h : t.node? l = none) (hs : ∀ name ∈ l, name.utf8ByteSize ≤ maxNameSize) (c : Content) :
    t.openOrMake l c = some (t.addFile l c, t.contents.size) := by
  have hshort : l.any (maxNameSize < ·.utf8ByteSize) = false := by simpa using hs
  simp only [openOrMake, h, hshort]
  rfl

/-- A file that was made and is taken away leaves no trace. -/
theorem nodes_unlink {nodes : SortedMap Location Node} {n : Nat} (hl : l ≠ []) (h : t.nodes = nodes.insert l (.file n))
    (hf : ∀ e ∈ nodes.entries, ¬l <+: e.1) : (t.unlink l).nodes = nodes := by
  have hnode : t.node? l = some (.file n) := by rw [node?, if_neg hl, h, SortedMap.get?_insert_self]
  simp only [unlink, hnode]
  show t.nodes.filterKeys (!l.isPrefixOf ·) = nodes
  rw [h, SortedMap.filterKeys_insert, if_neg (by simp), SortedMap.filterKeys_eq_self]
  intro e he
  rw [Bool.not_eq_true', ← Bool.not_eq_true, List.isPrefixOf_iff_prefix]
  exact hf e he

end FileTree

/-! ## places beside a file -/

namespace Place

/-- What the names of the files that transactions make beside a database's have more than its own. -/
def endings : List String := ["-wal", "-shm", "-journal"]

theorem beside_self {l : Location} (h : l ≠ []) : beside l "" = l := by
  unfold beside
  rw [String.append_empty, List.getLast?_eq_some_getLast h, Option.getD_some, List.dropLast_concat_getLast]

theorem beside_prefix_iff (l : Location) (a b : String) : beside l a <+: beside l b ↔ a = b := by
  constructor
  · intro h
    have heq := h.eq_of_length (by simp [beside])
    simpa [beside] using heq
  · rintro rfl
    exact List.prefix_rfl

theorem eq_of_beside {l : Location} {a b : String} (h : beside l a = beside l b) : a = b :=
  (beside_prefix_iff l a b).mp (h ▸ List.prefix_rfl)

end Place

/-- A database's file in a tree that has nothing where the files beside it are made. -/
structure Site where
  tree : FileTree
  path : String
  place : Location
  file : Nat
  leads : Place.ofPath tree path = some place
  found : tree.node? place = some (.file file)
  free : ∀ ending ∈ Place.endings, ∀ e ∈ tree.nodes.entries, ¬Place.beside place ending <+: e.1
  short : ∀ name ∈ Place.journal place, name.utf8ByteSize ≤ FileTree.maxNameSize

namespace Site

open FileTree

variable (site : Site)

theorem place_ne : site.place ≠ [] := by
  intro h
  have := site.found
  rw [h] at this
  cases this

theorem straight : site.tree.Straight site.place.dropLast ∧ ∀ name ∈ site.place, IsName name := by
  have h := site.leads
  unfold Place.ofPath at h
  obtain ⟨l, -, h⟩ := Option.bind_eq_some_iff.mp h
  split at h
  · cases h
  · rcases hw : site.tree.walk .place 0 [] l with e | l'
    · rw [hw] at h; cases h
    · rw [hw] at h
      cases h
      exact walk_place straight_root (by simp) hw

theorem isName_beside {ending : String} (h : 3 ≤ ending.utf8ByteSize ∧ ending.utf8ByteSize ≤ Place.sideNameSize) :
    IsName (site.place.getLast?.getD "" ++ ending) := by
  have hsize : (site.place.getLast?.getD "" ++ ending).utf8ByteSize =
      (site.place.getLast?.getD "").utf8ByteSize + ending.utf8ByteSize := String.utf8ByteSize_append
  have hlong : ∀ s : String, s.utf8ByteSize < 3 → site.place.getLast?.getD "" ++ ending ≠ s := by
    rintro s hs rfl
    omega
  have hshort := site.short (site.place.getLast?.getD "" ++ "-journal") (by simp [Place.journal, Place.beside])
  have : "-journal".utf8ByteSize = Place.sideNameSize := rfl
  rw [String.utf8ByteSize_append] at hshort
  exact ⟨hlong _ (by decide), hlong _ (by decide), hlong _ (by decide), by omega⟩

theorem names_beside {ending : String} (h : ending ∈ Place.endings) :
    IsName (site.place.getLast?.getD "" ++ ending) ∧
      ∀ name ∈ Place.beside site.place ending, name.utf8ByteSize ≤ maxNameSize := by
  have hname : IsName (site.place.getLast?.getD "" ++ ending) := by
    apply site.isName_beside
    simp only [Place.endings, List.mem_cons, List.not_mem_nil, or_false] at h
    rcases h with rfl | rfl | rfl <;> decide
  refine ⟨hname, ?_⟩
  intro name hm
  rcases List.mem_append.mp hm with hm | hm
  · exact (site.straight.2 name (List.mem_of_mem_dropLast hm)).size_le
  · rw [List.mem_singleton.mp hm]
    exact hname.size_le

section

variable {site} {t : FileTree} (h : t.nodes = site.tree.nodes)

include h

theorem node?_place : t.node? site.place = some (.file site.file) := by
  rw [node?_congr h]
  exact site.found

theorem stands_place : t.stands site.place = true := by
  obtain ⟨hs, hn⟩ := site.straight
  have hlast := List.dropLast_concat_getLast site.place_ne
  have hnode := site.found
  rw [← hlast] at hnode
  rw [stands_congr h, stands, ← hlast, hs.walk_file (hn _ (List.getLast_mem site.place_ne)) hnode]
  rfl

variable {ending : String} (he : ending ∈ Place.endings)

include he

theorem node?_beside : t.node? (Place.beside site.place ending) = none := by
  rw [node?, if_neg (by simp [Place.beside]), h]
  rcases hn : site.tree.nodes.get? (Place.beside site.place ending) with _ | n
  · rfl
  · exact absurd List.prefix_rfl (site.free ending he _ (SortedMap.get?_eq_some_iff.mp hn))

/-- Nothing is heard from beside the file, so there is no journal to clear away and no log to read. -/
theorem speaks_beside : t.speaks (Place.beside site.place ending) = false := by
  have hnode := node?_beside h he
  rw [node?_congr h] at hnode
  rw [speaks, walk_congr h, Place.beside, site.straight.1.walk_missing (site.names_beside he).1 hnode]

theorem unlink_beside : t.unlink (Place.beside site.place ending) = t := by
  simp only [unlink, node?_beside h he]

theorem openOrMake_beside (c : Content) : t.openOrMake (Place.beside site.place ending) c =
    some (t.addFile (Place.beside site.place ending) c, t.contents.size) :=
  openOrMake_of_none (node?_beside h he) (site.names_beside he).2 c

end

/-! ## with a log -/

/-- What stands in the tree while the database has a log and an index to it, which are the files of these numbers. -/
def loggedNodes (log index : Nat) : SortedMap Location Node :=
  (site.tree.nodes.insert (Place.log site.place) (.file log)).insert (Place.index site.place) (.file index)

section

variable {site} {t : FileTree} {log index : Nat}

/-- The index is made after the log. -/
theorem node?_index (h : t.nodes = site.tree.nodes.insert (Place.log site.place) (.file log)) :
    t.node? (Place.index site.place) = none := by
  have hne : Place.beside site.place "-shm" ≠ Place.log site.place :=
    fun h => absurd (Place.eq_of_beside h) (by decide)
  have hnone := node?_beside (rfl : site.tree.nodes = _) (by decide : "-shm" ∈ Place.endings)
  have hroot : Place.beside site.place "-shm" ≠ [] := by simp [Place.beside]
  rw [node?, if_neg hroot] at hnone
  rw [Place.index, node?, if_neg hroot, h, SortedMap.get?_insert_ne _ _ hne, hnone]

theorem openOrMake_index (h : t.nodes = site.tree.nodes.insert (Place.log site.place) (.file log)) (c : Content) :
    t.openOrMake (Place.index site.place) c = some (t.addFile (Place.index site.place) c, t.contents.size) :=
  openOrMake_of_none (node?_index h) (site.names_beside (by decide)).2 c

theorem node?_place_logged (h : t.nodes = site.loggedNodes log index) :
    t.node? site.place = some (.file site.file) := by
  have hne : ∀ ending, ending ≠ "" → site.place ≠ Place.beside site.place ending := by
    intro ending he hp
    exact he (Place.eq_of_beside (hp.symm.trans (Place.beside_self site.place_ne).symm))
  have hlog : site.place ≠ Place.log site.place := hne "-wal" (by decide)
  have hindex : site.place ≠ Place.index site.place := hne "-shm" (by decide)
  have hfound := site.found
  rw [node?, if_neg site.place_ne] at hfound ⊢
  rw [h, loggedNodes, SortedMap.get?_insert_ne _ _ hindex, SortedMap.get?_insert_ne _ _ hlog]
  exact hfound

theorem nodes_unlink_files (h : t.nodes = site.loggedNodes log index) :
    ((t.unlink (Place.log site.place)).unlink (Place.index site.place)).nodes = site.tree.nodes := by
  have hne : Place.log site.place ≠ Place.index site.place := fun h => absurd (Place.eq_of_beside h) (by decide)
  rw [loggedNodes, SortedMap.insert_comm _ hne] at h
  have hlog := nodes_unlink (by simp [Place.log, Place.beside]) h (by
    intro e he hp
    rcases SortedMap.mem_insertEntry he with rfl | he
    · exact absurd ((Place.beside_prefix_iff _ _ _).mp hp) (by decide)
    · exact site.free "-wal" (by decide) e he hp)
  exact nodes_unlink (by simp [Place.index, Place.beside]) hlog (site.free "-shm" (by decide))

end

end Site

/-! ## free places -/

/-- A path that leads to a place where a database can be made, as nothing is there, nor anything beside it. -/
structure FileTree.Vacant (t : FileTree) (path : String) (l : Location) : Prop where
  leads : Place.ofPath t path = some l
  /-- The path does not go by what will be a file. -/
  leads_still : Place.ofPath (t.addFile l .empty) path = some l
  missing : t.node? l = none
  free : ∀ ending ∈ Place.endings, ∀ e ∈ t.nodes.entries, ¬Place.beside l ending <+: e.1
  /-- The files beside it can be named. -/
  short : ∀ name ∈ Place.journal l, name.utf8ByteSize ≤ maxNameSize

namespace FileTree.Vacant

variable {t : FileTree} {path : String} {l : Location} (h : t.Vacant path l)

include h

theorem place_ne : l ≠ [] := by
  rintro rfl
  cases h.missing

theorem free_still : ∀ ending ∈ Place.endings, ∀ e ∈ (t.addFile l .empty).nodes.entries,
    ¬Place.beside l ending <+: e.1 := by
  intro ending he e hm hp
  rcases SortedMap.mem_insertEntry hm with rfl | hm
  · have hself : Place.beside l ending <+: Place.beside l "" := by
      rw [Place.beside_self h.place_ne]
      exact hp
    rw [(Place.beside_prefix_iff _ _ _).mp hself] at he
    exact absurd he (by decide)
  · exact h.free ending he e hm hp

def site : Site where
  tree := t.addFile l .empty
  path := path
  place := l
  file := t.contents.size
  leads := h.leads_still
  found := node?_addFile_self h.place_ne _
  free := h.free_still
  short := h.short

end FileTree.Vacant

end TableMigrations
