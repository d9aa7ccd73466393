/-
  TableMigrations.Proofs.Connection — a connection to a database that nobody else works on.

  Such a connection is in one of two states. It is `Quiet` while nothing stands beside the file: the file says what the
  database is. It is `Logging` while it has a log and an index: the log says so, or the file until the log has been
  written to. Each work on a connection has one lemma for each state, and callers use no other. From these follow what
  an open comes to for any file and journal mode (`Quiet.on_setJournal`, `Ready.on_makeRelations`), how an open
  connection answers (`Open`), and that closing leaves everything in the file (`Open.close`).
-/
import TableMigrations.Files.Connection
import TableMigrations.Proofs.Place

namespace TableMigrations

namespace Connection

variable {c d : Connection}

/-! ## states of a connection -/

structure At (site : Site) (c : Connection) : Prop where
  address : c.address = .ofPath site.path
  place : c.place = site.place
  file : c.file = site.file
  here : c.tree.here = site.tree.here
  known : site.file < c.tree.contents.size

/-- Nothing stands beside the file, which holds this content. -/
structure Quiet (site : Site) (c : Connection) (content : Content) : Prop extends At site c where
  nodes : c.tree.nodes = site.tree.nodes
  log : c.log = none
  content : c.content = content

/-- The database is this image by its log. A log that nothing has been written to yet leaves it to the file. -/
structure Logging (site : Site) (c : Connection) (image : Image) (logFile indexFile : Nat) (filled : Bool) : Prop
    extends At site c where
  nodes : c.tree.nodes = site.loggedNodes logFile indexFile
  journal : c.journal = .wal
  log : c.log = some ⟨logFile, some ⟨.shared indexFile, image, filled⟩⟩
  sizes : logFile < c.tree.contents.size ∧ indexFile < c.tree.contents.size
  apart : site.file ≠ logFile ∧ site.file ≠ indexFile ∧ logFile ≠ indexFile
  indexed : c.tree.content indexFile = .index
  main : ∃ i, c.content = .database i
  told : (filled = true ∧ ∃ whole, c.tree.content logFile = .log ⟨image, whole⟩) ∨
    (filled = false ∧ c.tree.content logFile = .empty ∧ c.content = .database image)

variable {site : Site} {content : Content} {i : Image}

/-! ## finding out what there is -/

def settle (c : Connection) : Connection := if c.journal = .wal then { c with journal := .delete } else c

theorem settle_of_ne (h : c.journal ≠ .wal) : c.settle = c := if_neg h

theorem Quiet.settled (q : Quiet site c content) : Quiet site c.settle content := by
  unfold settle
  split
  · exact { q with }
  · exact q

theorem Quiet.speaks_journal (q : Quiet site c content) : c.tree.speaks (Place.journal c.place) = false := by
  rw [q.place]
  exact site.speaks_beside q.nodes (by decide)

theorem Quiet.on_lookAround (q : Quiet site c content) : lookAround.on c = (.ok (), c.settle) := by
  have hlog : c.tree.speaks (Place.log c.place) = false := by
    rw [q.place]
    exact site.speaks_beside q.nodes (by decide)
  have hclear : clearJournal.on c = (.ok (), c) := by simp [clearJournal, q.speaks_journal]
  have hfind : findLog.on c = (.ok (), c.settle) := by
    simp only [findLog, Work.on_get, hlog, settle]
    by_cases hj : c.journal = .wal <;> simp [hj]
  simp [lookAround, q.address, Address.ofPath, Work.on_bind_ok hclear, hfind]

def withLog (c : Connection) : Connection :=
  { c with
    tree := c.tree.addFile (Place.log c.place) .empty
    journal := .wal
    log := some ⟨c.tree.contents.size, none⟩ }

theorem Quiet.on_openLog (q : Quiet site c content) : openLog.on c = (.ok (), c.withLog) := by
  have hmake := site.openOrMake_beside q.nodes (by decide : "-wal" ∈ Place.endings) .empty
  simp [openLog, withLog, q.address, Address.canLog, Medium.locksFile, Address.ofPath, q.place,
    site.stands_place q.nodes, Place.log, hmake]

/-- The log is read together with the file, and an index to it is made. -/
theorem Quiet.on_readLog (q : Quiet site c (.database i)) : ∃ d logFile indexFile,
    (readLog ⟨c.tree.contents.size, none⟩).on c.withLog = (.ok ⟨.shared indexFile, i, false⟩, d) ∧
      Logging site d i logFile indexFile false := by
  have hknown := q.known
  have hnodes : c.withLog.tree.nodes = site.tree.nodes.insert (Place.log site.place) (.file c.tree.contents.size) := by
    rw [← q.nodes, ← q.place]; rfl
  have hsize : c.withLog.tree.contents.size = c.tree.contents.size + 1 := FileTree.size_addFile _ _
  let made : Connection := { c.withLog with tree := c.withLog.tree.addFile (Place.index site.place) .index }
  have hindex : openIndex.on c.withLog = (.ok (.shared c.withLog.tree.contents.size), made) := by
    have haddress : c.withLog.address = .ofPath site.path := q.address
    have hplace : c.withLog.place = site.place := q.place
    simp [openIndex, made, haddress, Address.ofPath, hplace, site.node?_index hnodes,
      site.openOrMake_index hnodes .index]
  have hlog : made.tree.content c.tree.contents.size = .empty := by
    show (c.withLog.tree.addFile _ _).content _ = _
    rw [FileTree.content_addFile_lt (by omega)]
    exact FileTree.content_addFile_self _
  have hmain : made.content = .database i := by
    show (c.withLog.tree.addFile _ _).content c.file = _
    rw [q.file, FileTree.content_addFile_lt (by omega)]
    refine (FileTree.content_addFile_lt hknown _).trans ?_
    rw [← q.file]
    exact q.content
  let view : LogView := ⟨.shared c.withLog.tree.contents.size, i, false⟩
  refine ⟨{ made with log := some ⟨c.tree.contents.size, some view⟩ }, c.tree.contents.size,
    c.withLog.tree.contents.size, ?_, ?_⟩
  · simp [readLog, Work.on_bind_ok hindex, hlog, hmain, recover, Content.empty, view]
  · refine { address := q.address, place := q.place, file := q.file, here := q.here, known := ?_, nodes := ?_,
             journal := rfl, log := rfl, sizes := ?_, apart := ?_, indexed := ?_, main := ⟨i, hmain⟩,
             told := Or.inr ⟨rfl, hlog, hmain⟩ }
    · show _ < (c.withLog.tree.addFile _ _).contents.size
      rw [FileTree.size_addFile]
      omega
    · show c.withLog.tree.nodes.insert _ _ = _
      rw [hnodes]
      rfl
    · show _ < (c.withLog.tree.addFile _ _).contents.size ∧ _ < (c.withLog.tree.addFile _ _).contents.size
      rw [FileTree.size_addFile]
      omega
    · omega
    · exact FileTree.content_addFile_self _

/-! ## reading -/

theorem Quiet.on_read_empty (q : Quiet site c .empty) (hj : c.journal ≠ .wal) (follow : Bool) :
    (read follow).on c = (.ok none, c) := by
  have hlook := q.on_lookAround
  have hempty : (Content.bytes .empty).isEmpty = true := rfl
  rw [settle_of_ne hj] at hlook
  simp [read, q.address, Address.ofPath, q.log, Work.on_bind_ok hlook, q.content, Content.empty, hempty]

theorem Quiet.on_read (q : Quiet site c (.database i)) (hj : c.journal ≠ .wal) {follow : Bool}
    (h : (i.logged && follow) = false) : (read follow).on c = (.ok (some i), c) := by
  have hlook := q.on_lookAround
  have hn : ¬(i.logged = true ∧ follow = true) := by simpa using h
  rw [settle_of_ne hj] at hlook
  simp [read, q.address, Address.ofPath, q.log, Work.on_bind_ok hlook, q.content, hn]

theorem Quiet.on_read_logged (q : Quiet site c (.database i)) (h : i.logged = true) :
    ∃ d logFile indexFile, (read true).on c = (.ok (some i), d) ∧ Logging site d i logFile indexFile false := by
  have q' := q.settled
  obtain ⟨d, logFile, indexFile, hread, g⟩ := q'.on_readLog
  have hopen : c.settle.withLog.log = some ⟨c.settle.tree.contents.size, none⟩ := rfl
  refine ⟨d, logFile, indexFile, ?_, g⟩
  simp [read, q.address, Address.ofPath, q.log, Work.on_bind_ok q.on_lookAround, q'.log, q'.content, h,
    Work.on_bind_ok q'.on_openLog, hopen, hread]

variable {logFile indexFile : Nat} {filled : Bool}

theorem Logging.on_read (g : Logging site c i logFile indexFile filled) (follow : Bool) :
    (read follow).on c = (.ok (some i), c) := by
  obtain ⟨main, hmain⟩ := g.main
  have hview : (readLog ⟨logFile, some ⟨.shared indexFile, i, filled⟩⟩).on c =
      (.ok ⟨.shared indexFile, i, filled⟩, c) := by
    simp [readLog, hasIndex, g.indexed, hmain]
  simp [read, g.address, Address.ofPath, g.log, hview]

/-! ## writing -/

theorem Quiet.refusal? (q : Quiet site c content) : c.refusal? = none := by
  simp [Connection.refusal?, q.address, Address.ofPath, Address.isWritable, q.log]

theorem Quiet.obstacle? (q : Quiet site c content) : c.obstacle? = none := by
  have hmake := site.openOrMake_beside q.nodes (by decide : "-journal" ∈ Place.endings) .empty
  simp [Connection.obstacle?, q.refusal?, q.log, hasMoved, q.place, q.file, site.node?_place q.nodes,
    site.stands_place q.nodes, Place.journal, hmake]

theorem Logging.refusal? (g : Logging site c i logFile indexFile filled) : c.refusal? = none := by
  simp [Connection.refusal?, g.address, Address.ofPath, Address.isWritable, g.log]

theorem Logging.obstacle? (g : Logging site c i logFile indexFile filled) : c.obstacle? = none := by
  simp [Connection.obstacle?, g.refusal?, g.log]

theorem Quiet.on_commit (q : Quiet site c content) (i : Image) :
    ∃ d, (commit i).on c = (.ok (), d) ∧ Quiet site d (.database i) ∧ d.journal = c.journal := by
  have hunlink : (c.tree.setContent c.file (.database i)).unlink (Place.journal c.place) =
      c.tree.setContent c.file (.database i) := by
    have hnodes : (c.tree.setContent c.file (.database i)).nodes = site.tree.nodes := q.nodes
    rw [q.place]
    exact site.unlink_beside hnodes (by decide)
  have hon : (commit i).on c = (.ok (), { c with tree := c.tree.setContent c.file (.database i) }) := by
    simp [commit, q.obstacle?, q.log, hunlink]
  refine ⟨_, hon, ?_, rfl⟩
  have := q.known
  refine { address := q.address, place := q.place, file := q.file, here := q.here, nodes := q.nodes, log := q.log,
           known := ?_, content := ?_ }
  · rwa [FileTree.size_setContent]
  · exact FileTree.content_setContent_self (by rwa [q.file]) _

theorem Logging.on_commit (g : Logging site c i logFile indexFile filled) (j : Image) :
    ∃ d, (commit j).on c = (.ok (), d) ∧ Logging site d j logFile indexFile true := by
  have hon : ∃ whole, (commit j).on c = (.ok (), { c with
      tree := c.tree.setContent logFile (.log ⟨j, whole⟩)
      log := some ⟨logFile, some ⟨.shared indexFile, j, true⟩⟩ }) := by
    simp only [commit, Work.on_get, g.obstacle?, Work.on_modify, g.log, Option.map_some]
    exact ⟨_, rfl⟩
  obtain ⟨whole, hon⟩ := hon
  obtain ⟨main, hmain⟩ := g.main
  obtain ⟨hlog, hindex⟩ := g.sizes
  obtain ⟨hfile, -, happart⟩ := g.apart
  refine ⟨_, hon, ?_⟩
  refine { address := g.address, place := g.place, file := g.file, here := g.here, nodes := g.nodes,
           journal := g.journal, log := rfl, apart := g.apart, known := ?_, sizes := ?_, indexed := ?_,
           main := ⟨main, ?_⟩, told := Or.inl ⟨rfl, whole, FileTree.content_setContent_self hlog _⟩ }
  · rw [FileTree.size_setContent]
    exact g.known
  · rw [FileTree.size_setContent]
    exact g.sizes
  · rw [FileTree.content_setContent_ne happart.symm]
    exact g.indexed
  · refine (FileTree.content_setContent_ne ?_ _).trans hmain
    rw [g.file]
    exact hfile

/-- When the log is put into the file, the file says what the log said, and nothing is left of it. -/
theorem Logging.putLog (g : Logging site c i logFile indexFile filled) :
    ∃ d, c.putLog = some d ∧ Quiet site d (.database i) := by
  obtain ⟨tree, hput, hnodes, hhere, hsize, hcontent⟩ : ∃ tree : FileTree,
      c.putLog = some { c with
        tree := (tree.unlink (Place.log site.place)).unlink (Place.index site.place), log := none } ∧
      tree.nodes = c.tree.nodes ∧ tree.here = c.tree.here ∧ tree.contents.size = c.tree.contents.size ∧
      tree.content c.file = .database i := by
    rcases g.told with ⟨rfl, whole, htold⟩ | ⟨rfl, htold, hmain⟩
    · refine ⟨c.tree.setContent c.file (.database i), ?_, rfl, rfl, FileTree.size_setContent _ _, ?_⟩
      · simp [Connection.putLog, g.log, g.address, Address.ofPath, Address.isWritable, htold, g.place]
      · exact FileTree.content_setContent_self (by rw [g.file]; exact g.known) _
    · refine ⟨c.tree, ?_, rfl, rfl, rfl, hmain⟩
      simp [Connection.putLog, g.log, g.address, Address.ofPath, Address.isWritable, htold, g.place, Content.empty]
  refine ⟨_, hput, ?_⟩
  refine { address := g.address, place := g.place, file := g.file, log := rfl, known := ?_, here := ?_, nodes := ?_,
           content := ?_ }
  · rw [FileTree.here_unlink, FileTree.here_unlink, hhere]
    exact g.here
  · rw [FileTree.contents_unlink, FileTree.contents_unlink, hsize]
    exact g.known
  · exact site.nodes_unlink_files (hnodes.trans g.nodes)
  · show FileTree.content _ c.file = _
    rw [FileTree.content_unlink, FileTree.content_unlink]
    exact hcontent

/-! ## opening and closing -/

def Tells (content : Content) (r : Option Relations) : Prop :=
  (content = .empty ∧ r = none) ∨ ∃ logged, content = .database ⟨logged, r⟩

/-- A connection to a database with these relations, or to an empty file, when it knows whether to use a log. -/
inductive Ready (site : Site) (c : Connection) (r : Option Relations) : Prop
  /-- The log is made by the next transaction. -/
  | called (q : Quiet site c (.database ⟨true, r⟩))
  | logging {logFile indexFile : Nat} {filled : Bool} (g : Logging site c ⟨true, r⟩ logFile indexFile filled)
  /-- No log is asked for. -/
  | direct {content : Content} (q : Quiet site c content)
      (ht : (content = .empty ∧ r = none) ∨ content = .database ⟨false, r⟩) (hj : c.journal ≠ .wal)

inductive Open (site : Site) (c : Connection) (s : Relations) : Prop
  | direct (q : Quiet site c (.database ⟨false, some s⟩)) (hj : c.journal ≠ .wal)
  | logging {logFile indexFile : Nat} {filled : Bool} (g : Logging site c ⟨true, some s⟩ logFile indexFile filled)

variable {r : Option Relations}

theorem Quiet.on_setLogged (q : Quiet site c content) (ht : Tells content r) (hj : c.journal ≠ .wal) (logged : Bool) :
    ∃ d, (setLogged logged).on c = (.ok (), d) ∧ Quiet site d (.database ⟨logged, r⟩) ∧ d.journal = c.journal := by
  obtain ⟨d, hcommit, q', hj'⟩ := q.on_commit ⟨logged, r⟩
  rcases ht with ⟨rfl, rfl⟩ | ⟨before, rfl⟩
  · refine ⟨d, ?_, q', hj'⟩
    have hread := q.on_read_empty hj false
    simp [setLogged, Work.on_bind_ok hread, hcommit]
  · have hread := q.on_read hj (Bool.and_false _)
    by_cases hb : before = logged
    · subst hb
      exact ⟨c, by simp [setLogged, Work.on_bind_ok hread], q, rfl⟩
    · exact ⟨d, by simp [setLogged, Work.on_bind_ok hread, hb, hcommit], q', hj'⟩

theorem Quiet.on_clearEnded (q : Quiet site c content) : clearEnded.on c = (.ok (), c) := by
  simp [clearEnded, q.speaks_journal]

theorem Quiet.on_setJournal (q : Quiet site c content) (ht : Tells content r) (hj : c.journal = .delete)
    (wanted : JournalMode) : ∃ d, (setJournal wanted).on c = (.ok (), d) ∧ Ready site d r := by
  have hne : c.journal ≠ .wal := by rw [hj]; decide
  have hcan : c.address.canLog = true := by rw [q.address]; rfl
  rcases ht with ⟨rfl, rfl⟩ | ⟨_ | _, rfl⟩
  · -- a new file
    have hread := q.on_read_empty hne true
    obtain ⟨d, hset, qd, -⟩ := q.on_setLogged (Or.inl ⟨rfl, rfl⟩) hne true
    by_cases hw : wanted = .wal
    · refine ⟨{ d with journal := .wal }, ?_, .called { qd with }⟩
      simp [setJournal, Work.on_bind_ok hread, hw, hne, hcan, Work.on_bind_ok hset]
    · refine ⟨{ c with journal := wanted }, ?_, .direct { q with } (Or.inl ⟨rfl, rfl⟩) hw⟩
      simp [setJournal, Work.on_bind_ok hread, hw, hne]
  · -- a file that is written without a log
    have hread := q.on_read hne (Bool.false_and true)
    obtain ⟨d, hset, qd, -⟩ := q.on_setLogged (Or.inr ⟨_, rfl⟩) hne true
    by_cases hw : wanted = .wal
    · refine ⟨{ d with journal := .wal }, ?_, .called { qd with }⟩
      simp [setJournal, Work.on_bind_ok hread, hw, hne, hcan, Work.on_bind_ok hset]
    · refine ⟨{ c with journal := wanted }, ?_, .direct { q with } (Or.inr rfl) hw⟩
      simp [setJournal, Work.on_bind_ok hread, hw, hne]
  · -- a file that is written through a log, which is opened to begin with
    obtain ⟨d, logFile, indexFile, hread, g⟩ := q.on_read_logged rfl
    by_cases hw : wanted = .wal
    · exact ⟨d, by simp [setJournal, Work.on_bind_ok hread, hw, g.journal], .logging g⟩
    · obtain ⟨e, hput, qe⟩ := g.putLog
      have qe' : Quiet site { e with journal := wanted } (.database ⟨true, r⟩) := { qe with }
      obtain ⟨f, hset, qf, hjf⟩ := qe'.on_setLogged (Or.inr ⟨_, rfl⟩) hw false
      have hend : (if wanted = .memory then clearEnded else pure ()).on f = (.ok (), f) := by
        split
        · exact qf.on_clearEnded
        · rfl
      refine ⟨f, ?_, .direct qf (Or.inr rfl) (by rw [hjf]; exact hw)⟩
      simp [setJournal, Work.on_bind_ok hread, hw, g.journal, hput, Work.on_bind_ok hset, hend]

theorem Ready.on_makeRelations (h : Ready site c r) :
    ∃ d, makeRelations.on c = (.ok (), d) ∧ Open site d (r.getD .empty) := by
  have hlogging : ∀ {c d : Connection} {logFile indexFile : Nat} {filled : Bool},
      (read true).on c = (.ok (some ⟨true, r⟩), d) → Logging site d ⟨true, r⟩ logFile indexFile filled →
      ∃ e, makeRelations.on c = (.ok (), e) ∧ Open site e (r.getD .empty) := by
    intro c d logFile indexFile filled hread g
    rcases r with _ | s
    · obtain ⟨e, hcommit, ge⟩ := g.on_commit ⟨true, some .empty⟩
      exact ⟨e, by simp [makeRelations, Work.on_bind_ok hread, Work.on_bind_ok hcommit, ge.on_read true], .logging ge⟩
    · exact ⟨d, by simp [makeRelations, Work.on_bind_ok hread], .logging g⟩
  cases h with
  | called q =>
    obtain ⟨d, logFile, indexFile, hread, g⟩ := q.on_read_logged rfl
    exact hlogging hread g
  | logging g => exact hlogging (g.on_read true) g
  | direct q ht hj =>
    rcases r with _ | s
    · obtain ⟨d, hcommit, qd, hjd⟩ := q.on_commit ⟨false, some .empty⟩
      have hjd : d.journal ≠ .wal := by rw [hjd]; exact hj
      have hagain := qd.on_read hjd (Bool.false_and true)
      refine ⟨d, ?_, .direct qd hjd⟩
      rcases ht with ⟨rfl, -⟩ | rfl
      · have hread := q.on_read_empty hj true
        simp [makeRelations, Work.on_bind_ok hread, Work.on_bind_ok hcommit, hagain]
      · have hread := q.on_read hj (Bool.false_and true)
        simp [makeRelations, Work.on_bind_ok hread, Work.on_bind_ok hcommit, hagain]
    · rcases ht with ⟨-, hs⟩ | rfl
      · cases hs
      · have hread := q.on_read hj (Bool.false_and true)
        exact ⟨c, by simp [makeRelations, Work.on_bind_ok hread], .direct q hj⟩

/-! ## while it is open -/

section

variable {s : Relations} (h : Open site c s)

include h

theorem Open.on_read : ∃ logged, (read true).on c = (.ok (some ⟨logged, some s⟩), c) := by
  cases h with
  | direct q hj => exact ⟨false, q.on_read hj (Bool.false_and true)⟩
  | logging g => exact ⟨true, g.on_read true⟩

theorem Open.on_relations : relations.on c = (.ok s, c) := by
  obtain ⟨logged, hread⟩ := h.on_read
  simp [relations, Work.on_bind_ok hread]

theorem Open.refusal? : c.refusal? = none := by
  cases h with
  | direct q _ => exact q.refusal?
  | logging g => exact g.refusal?

theorem Open.obstacle? : c.obstacle? = none := by
  cases h with
  | direct q _ => exact q.obstacle?
  | logging g => exact g.obstacle?

theorem Open.on_change (after : Relations) : ∃ d, (change after).on c = (.ok (), d) ∧ Open site d after := by
  cases h with
  | direct q hj =>
    obtain ⟨d, hcommit, qd, hjd⟩ := q.on_commit ⟨false, some after⟩
    have hread := q.on_read hj (Bool.false_and true)
    exact ⟨d, by simp [change, Work.on_bind_ok hread, hcommit], .direct qd (by rw [hjd]; exact hj)⟩
  | logging g =>
    obtain ⟨d, hcommit, gd⟩ := g.on_commit ⟨true, some after⟩
    exact ⟨d, by simp [change, Work.on_bind_ok (g.on_read true), hcommit], .logging gd⟩

/-- Closed, the database is in its file, beside which nothing is left. -/
theorem Open.close : ∃ d logged, c.close = d.tree ∧ Quiet site d (.database ⟨logged, some s⟩) := by
  cases h with
  | direct q _ =>
    refine ⟨c, false, ?_, q⟩
    simp [Connection.close, Connection.putLog, q.log]
  | logging g =>
    obtain ⟨d, hput, qd⟩ := g.putLog
    refine ⟨d, true, ?_, qd⟩
    have hplace : c.tree.node? c.place = some (.file c.file) := by
      rw [g.place, g.file]
      exact site.node?_place_logged g.nodes
    simp [Connection.close, hasMoved, hplace, hput]

end

end Connection

end TableMigrations
