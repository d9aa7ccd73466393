/-
  TableMigrations.Proofs.FileEngine — the engine on the tree of files does what an engine is documented to do.

  Where a connection stands is told of its home, of which there are two kinds (`Home.Opened`, `Home.Configured`,
  `Home.Has`), and of its transaction (`Transaction.Makes`). A home that has relations can be read and written
  (`Home.Has.on_put`), so statements, transactions and the rest have one lemma each, and the laws are read off them
  (`Files.documented`). What a world keeps under an address is told by `Files.Keeps`.
-/
import TableMigrations.Files.Engine
import TableMigrations.Proofs.Codec
import TableMigrations.Proofs.Connection

namespace TableMigrations

open Connection

/-! ## statements that change nothing -/

namespace Statement

variable {r : Relations}

theorem effect_of_not_isWrite {q : Statement} (h : q.isWrite = false) : q.effect r = r := by
  cases q <;> first | rfl | cases h

theorem effect_of_not_alters {q : Statement} (h : q.alters r = false) : q.effect r = r := by
  cases q with
  | insertName table =>
    have hnames : r.names.insert table () = r.names := by
      apply SortedMap.ext_get?
      intro u
      rw [SortedMap.get?_insert]
      split
      next hu =>
        obtain ⟨⟨⟩, hs⟩ := Option.isSome_iff_exists.mp (Bool.not_eq_eq_eq_not.mp h)
        rw [hu, hs]
      next => rfl
    rw [effect, hnames]
  | deleteName table =>
    have hnames : r.names.erase table = r.names := by
      apply SortedMap.filterKeys_eq_self
      intro e he
      have hne : table ≠ e.1 := by
        rintro rfl
        have : r.names.contains e.1 = true := by rw [SortedMap.contains_eq, SortedMap.get?_eq_some_iff.mpr he]; rfl
        exact Bool.false_ne_true (h.symm.trans this)
      simpa using hne
    rw [effect, hnames]
  | deleteRow table key =>
    have hrows : r.rows.erase ⟨table, key⟩ = r.rows := by
      apply SortedMap.filterKeys_eq_self
      intro e he
      have hne : (⟨table, key⟩ : RowAddress) ≠ e.1 := by
        intro hk
        have : r.rows.contains ⟨table, key⟩ = true := by
          rw [SortedMap.contains_eq, hk, SortedMap.get?_eq_some_iff.mpr he]; rfl
        exact Bool.false_ne_true (h.symm.trans this)
      simpa using hne
    rw [effect, hrows]
  | deleteRows table =>
    have hrows : r.rows.filterKeys (·.table != table) = r.rows := by
      apply SortedMap.filterKeys_eq_self
      intro e he
      have := List.any_eq_false.mp h e he
      simpa using this
    rw [effect, hrows]
  | upsertRow => cases h
  | selectName | selectNames | selectRow | countRows | selectPage => rfl

end Statement

/-! ## where a connection stands -/

structure Address.IsOf (address path : String) : Prop where
  whole : address.contains '\x00' = false
  told : Address.read? address = some (.ofPath path)
  named : path ≠ "" ∧ path ≠ ":memory:"

namespace Home

inductive Opened : Home → Option String → Option Relations → Prop
  | volatile (t : FileTree) (journal : JournalMode) (r : Option Relations) : Opened (.volatile t journal r) none r
  | filed {site : Site} {address : String} {c : Connection} {content : Content} {r : Option Relations}
      (ha : Address.IsOf address site.path) (q : Quiet site c content) (ht : Tells content r)
      (hj : c.journal = .delete) : Opened (.filed c) (some address) r

inductive Configured : Home → Option String → Option Relations → Prop
  | volatile (t : FileTree) (journal : JournalMode) (r : Option Relations) : Configured (.volatile t journal r) none r
  | filed {site : Site} {address : String} {c : Connection} {r : Option Relations}
      (ha : Address.IsOf address site.path) (h : Ready site c r) : Configured (.filed c) (some address) r

/-- A database that has these relations, and can be worked with. -/
inductive Has : Home → Option String → Relations → Prop
  | volatile (t : FileTree) (journal : JournalMode) (r : Relations) : Has (.volatile t journal (some r)) none r
  | filed {site : Site} {address : String} {c : Connection} {r : Relations}
      (ha : Address.IsOf address site.path) (h : Open site c r) : Has (.filed c) (some address) r

end Home

/-- What a transaction that began with `before` has come to. -/
inductive Transaction.Makes (before : Relations) : Transaction → Relations → Prop
  | begun : Makes before .begun before
  | changed (r : Relations) : Makes before (.changed r) r

namespace Handle

variable {h : Handle} {path : Option String}

def Stands (h : Handle) (path : Option String) : Engine.Standing → Prop
  | .opened r => h.transaction = .absent ∧ h.home.Opened path r
  | .configured r => h.transaction = .absent ∧ h.home.Configured path r
  | .idle r => h.transaction = .absent ∧ h.home.Has path r
  | .within before now => h.transaction.Makes before now ∧ h.home.Has path before

theorem on_onFile {α : Type} {c d : Connection} {w : Connection.Work α} {answer : Except String α}
    (hw : w.on c = (answer, d)) : (onFile c w).on h = (answer, { h with home := .filed d }) := by
  rw [onFile, Work.on_mk, hw]

/-! ## reading and writing -/

section

variable {before now : Relations} (hh : h.home.Has path before)

include hh

theorem refusal?_of_has : h.refusal? = none := by
  obtain ⟨home, transaction⟩ := h
  cases hh with
  | volatile => rfl
  | filed _ ho => exact ho.refusal?

theorem obstacle?_of_has : h.obstacle? = none := by
  obtain ⟨home, transaction⟩ := h
  cases hh with
  | volatile => rfl
  | filed _ ho => exact ho.obstacle?

theorem on_current_idle (ht : h.transaction = .absent) : current.on h = (.ok before, h) := by
  obtain ⟨home, transaction⟩ := h
  obtain rfl : transaction = .absent := ht
  cases hh with
  | volatile => rfl
  | filed _ ho => exact on_onFile ho.on_relations

theorem on_current_within (ht : h.transaction.Makes before now) : current.on h = (.ok now, h) := by
  obtain ⟨home, transaction⟩ := h
  cases ht with
  | changed => cases home <;> rfl
  | begun =>
    cases hh with
    | volatile => rfl
    | filed _ ho => exact on_onFile ho.on_relations

theorem on_put (r : Relations) :
    ∃ d, (put r).on h = (.ok (), d) ∧ d.transaction = h.transaction ∧ d.home.Has path r := by
  obtain ⟨home, transaction⟩ := h
  cases hh with
  | volatile t journal => exact ⟨_, rfl, rfl, .volatile t journal r⟩
  | filed ha ho =>
    obtain ⟨d, hchange, hd⟩ := ho.on_change r
    exact ⟨_, on_onFile hchange, rfl, .filed ha hd⟩

end

/-! ## statements -/

/-- A statement on relations that can be read, and kept if it changes them. -/
theorem on_execute (stands : Handle → Relations → Prop) {now : Relations} (hread : current.on h = (.ok now, h))
    (hrefusal : h.refusal? = none) (hnow : stands h now)
    (hkeep : ∀ r, ∃ d, (keep r).on h = (.ok (), d) ∧ stands d r) (q : Statement) :
    ∃ d, (execute q).on h = (.ok (q.answer now), d) ∧ stands d (q.effect now) := by
  by_cases hw : q.isWrite = true
  · by_cases ha : q.alters now = true
    · obtain ⟨d, hon, hd⟩ := hkeep (q.effect now)
      exact ⟨d, by simp [execute, Work.on_bind_ok hread, hw, hrefusal, ha, hon], hd⟩
    · rw [Statement.effect_of_not_alters (Bool.not_eq_true _ ▸ ha)]
      exact ⟨h, by simp [execute, Work.on_bind_ok hread, hw, hrefusal, ha], hnow⟩
  · rw [Statement.effect_of_not_isWrite (Bool.not_eq_true _ ▸ hw)]
    exact ⟨h, by simp [execute, hread, hw], hnow⟩

theorem on_execute_idle {r : Relations} (hs : h.Stands path (.idle r)) (q : Statement) :
    ∃ d, (execute q).on h = (.ok (q.answer r), d) ∧ d.Stands path (.idle (q.effect r)) := by
  obtain ⟨ht, hh⟩ := hs
  refine on_execute (fun h r => h.Stands path (.idle r)) (on_current_idle hh ht) (refusal?_of_has hh)
    ⟨ht, hh⟩ ?_ q
  intro after
  obtain ⟨d, hput, htd, hd⟩ := on_put hh after
  exact ⟨d, by simp [keep, ht, hput], htd.trans ht, hd⟩

theorem on_execute_within {before now : Relations} (hs : h.Stands path (.within before now)) (q : Statement) :
    ∃ d, (execute q).on h = (.ok (q.answer now), d) ∧ d.Stands path (.within before (q.effect now)) := by
  obtain ⟨ht, hh⟩ := hs
  refine on_execute (fun h r => h.Stands path (.within before r)) (on_current_within hh ht)
    (refusal?_of_has hh) ⟨ht, hh⟩ ?_ q
  intro after
  have hkeep : (keep after).on h = (.ok (), { h with transaction := .changed after }) := by
    cases hx : h.transaction with
    | absent => rw [hx] at ht; cases ht
    | begun | changed => simp [keep, hx, obstacle?_of_has hh]
  exact ⟨_, hkeep, .changed after, hh⟩

/-! ## transactions -/

theorem on_start {r : Relations} (hs : h.Stands path (.idle r)) :
    ∃ d, start.on h = (.ok (), d) ∧ d.Stands path (.within r r) := by
  obtain ⟨ht, hh⟩ := hs
  exact ⟨{ h with transaction := .begun }, by simp [start, ht], .begun, hh⟩

theorem on_commit {before now : Relations} (hs : h.Stands path (.within before now)) :
    ∃ d, commit.on h = (.ok (), d) ∧ d.Stands path (.idle now) := by
  obtain ⟨home, transaction⟩ := h
  obtain ⟨ht, hh⟩ := hs
  cases ht with
  | begun => exact ⟨_, rfl, rfl, hh⟩
  | changed =>
    obtain ⟨d, hput, -, hd⟩ := on_put hh now
    exact ⟨{ d with transaction := .absent }, by simp [commit, Work.on_bind_ok hput], rfl, hd⟩

/-! ## opening and closing -/

theorem on_configure {r : Option Relations} (hs : h.Stands path (.opened r)) (wanted : JournalMode) :
    ∃ d, (configure wanted).on h = (.ok (), d) ∧ d.Stands path (.configured r) := by
  obtain ⟨home, transaction⟩ := h
  obtain ⟨ht, hh⟩ := hs
  cases hh with
  | volatile t journal => exact ⟨_, rfl, ht, .volatile t journal r⟩
  | filed ha q htells hj =>
    obtain ⟨d, hset, hready⟩ := q.on_setJournal htells hj wanted
    exact ⟨⟨.filed d, transaction⟩, by simp [configure, on_onFile hset], ht, .filed ha hready⟩

theorem on_createRelations {r : Option Relations} (hs : h.Stands path (.configured r)) :
    ∃ d, createRelations.on h = (.ok (), d) ∧ d.Stands path (.idle (r.getD .empty)) := by
  obtain ⟨home, transaction⟩ := h
  obtain ⟨ht, hh⟩ := hs
  cases hh with
  | volatile t journal =>
    cases r with
    | none => exact ⟨_, rfl, ht, .volatile t journal .empty⟩
    | some r => exact ⟨_, rfl, ht, .volatile t journal r⟩
  | filed ha hready =>
    obtain ⟨d, hmake, hopen⟩ := hready.on_makeRelations
    exact ⟨⟨.filed d, transaction⟩, by simp [createRelations, on_onFile hmake], ht, .filed ha hopen⟩

theorem openPath_eq {t : FileTree} {address path : String} (ha : Address.IsOf address path) :
    openPath t address =
      match Place.ofPath t path with
      | none => .error (cannotOpen, t)
      | some l =>
        match t.node? l with
        | some (.file n) => .ok (toFile t (.ofPath path) l n)
        | none => .ok (toFile (t.addFile l .empty) (.ofPath path) l t.contents.size)
        | some .directory | some (.link _) => .error (cannotOpen, t) := by
  rcases hl : Place.ofPath t path with _ | l
  · simp [openPath, ha.whole, ha.told, ha.named.1, ha.named.2, Address.ofPath, hl]
  · rcases hn : t.node? l with _ | ⟨n⟩ | - | target <;>
      simp [openPath, ha.whole, ha.told, ha.named.1, ha.named.2, Address.ofPath, hl, hn]

end Handle

namespace Files

/-- What a tree keeps under an address: a free place, or a database that is closed and in its file. -/
def Keeps (t : FileTree) (address : String) : Option Relations → Prop
  | none => ∃ path l, Address.IsOf address path ∧ t.Vacant path l
  | some r => ∃ (site : Site) (c : Connection) (logged : Bool), Address.IsOf address site.path ∧ c.tree = t ∧
      Quiet site c (.database ⟨logged, some r⟩)

theorem openPath_of_keeps {t : FileTree} {address : String} {r : Option Relations} (h : Keeps t address r) :
    ∃ c, Handle.openPath t address = .ok c ∧ c.Stands (some address) (.opened r) := by
  cases r with
  | none =>
    obtain ⟨path, l, ha, h⟩ := h
    have q : Quiet h.site ⟨t.addFile l .empty, .ofPath path, l, t.contents.size, .delete, none⟩ .empty :=
      { address := rfl, place := rfl, file := rfl, here := rfl, nodes := rfl, log := rfl
        known := by
          show t.contents.size < (t.addFile l .empty).contents.size
          rw [FileTree.size_addFile]
          exact Nat.lt_succ_self _
        content := FileTree.content_addFile_self _ }
    refine ⟨Handle.toFile (t.addFile l .empty) (.ofPath path) l t.contents.size, ?_, rfl,
      .filed ha q (Or.inl ⟨rfl, rfl⟩) rfl⟩
    rw [Handle.openPath_eq ha, h.leads]
    simp only [h.missing]
  | some r =>
    obtain ⟨site, c, logged, ha, rfl, q⟩ := h
    have hleads : Place.ofPath c.tree site.path = some site.place := by
      rw [FileTree.ofPath_congr q.nodes q.here]
      exact site.leads
    have q' : Quiet site ⟨c.tree, .ofPath site.path, site.place, site.file, .delete, none⟩
        (.database ⟨logged, some r⟩) :=
      { address := rfl, place := rfl, file := rfl, here := q.here, nodes := q.nodes, log := rfl, known := q.known
        content := by
          have := q.content
          rw [Connection.content, q.file] at this
          exact this }
    refine ⟨Handle.toFile c.tree (.ofPath site.path) site.place site.file, ?_, rfl,
      .filed ha q' (Or.inr ⟨logged, rfl⟩) rfl⟩
    rw [Handle.openPath_eq ha, hleads]
    simp only [site.node?_place q.nodes]

theorem keeps_close {h : Handle} {address : String} {r : Relations} (hs : h.Stands (some address) (.idle r)) :
    Keeps h.close address (some r) := by
  obtain ⟨home, transaction⟩ := h
  obtain ⟨-, hh⟩ := hs
  cases hh with
  | filed ha ho =>
    obtain ⟨d, logged, hclose, q⟩ := ho.close
    exact ⟨_, d, logged, ha, hclose.symm, q⟩

/-- The engine on the tree of files is one that does what is documented. -/
def documented : engine.Documented where
  Keeps := Keeps
  Stands := Handle.Stands
  openPath := openPath_of_keeps
  openInMemory t := ⟨_, rfl, rfl, .volatile t .memory none⟩
  configure hs wanted _ := Handle.on_configure hs wanted
  createRelations := Handle.on_createRelations
  execute := Handle.on_execute_idle
  start := Handle.on_start
  executeWithin := Handle.on_execute_within
  commit := Handle.on_commit
  rollback hs := ⟨rfl, hs.2⟩
  close := keeps_close
  decode_encode properties := by
    have hread := Codec.faithful_properties.read properties []
    rw [List.append_nil] at hread
    refine ⟨_, rfl, ?_⟩
    simp only [engine, hread]

end Files

end TableMigrations
