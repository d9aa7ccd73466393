/-
  TableMigrations.Store.Pager — a scan of a table, page by page.

  The pager remembers the key after which the next page starts. A page that says that nothing follows ends the
  scan: if it is empty it is the end itself, otherwise the end is told by the next call, which asks no store.
-/
import TableMigrations.Store.Call

namespace TableMigrations

structure Pager where
  table : String
  pageSize : Nat
  after : Option RowKey
  exhausted : Bool
  deriving DecidableEq, Repr

namespace Pager

/-- A scan from the start; pages have at least one row. -/
def start (table : String) (pageSize : Nat) : Pager := ⟨table, max pageSize 1, none, false⟩

/-- What the scan makes of an answer: the rows it hands out, or `none` at its end. -/
def receive (p : Pager) (page : EntityPage) : Option (List Entity) × Pager :=
  let p := { p with after := page.continuation, exhausted := page.continuation.isNone }
  (if p.exhausted && page.entities.isEmpty then none else some page.entities, p)

/-- The next page from a store. A call that fails leaves the scan where it was. -/
def nextPage {σ : Type} [TableStore σ] (p : Pager) (s : σ) : Except StoreError (Option (List Entity)) × Pager × σ :=
  if p.exhausted then (.ok none, p, s)
  else
    match TableStore.perform s (.queryPage p.table p.pageSize p.after) with
    | (.ok page, s) => let (rows, p) := p.receive page; (.ok rows, p, s)
    | (.error e, s) => (.error e, p, s)

end Pager

end TableMigrations
