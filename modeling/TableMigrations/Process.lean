/-
  TableMigrations.Process — work that proceeds by store calls, and the conditions it meets.

  A process is data: from each state it says what it asks for next (`Next`), and an answer leads to its next state.
  Cancellation is looked at before a guarded call and at a checkpoint, and nowhere else. `follow` carries a process
  on against stores under given conditions, and keeps every call that was made. The files that a process reads are
  those around the store of its tables, which may change with it.
-/
import TableMigrations.Store.Memory
import TableMigrations.Migration.Error

namespace TableMigrations

inductive Target where
  | data
  | ledger
  deriving DecidableEq, Repr

/-- What a process in a state of type `π` does next; it ends with an `α` or an error. -/
inductive Next (π α : Type) where
  | done (outcome : Except MigrateError α)
  /-- Goes on unless it has been cancelled. -/
  | checkpoint (go : π)
  /-- A call; a guarded one is not made once the process has been cancelled. An answer may end the process. -/
  | call (guarded : Bool) (target : Target) (c : Call) (resume : Except StoreError c.Result → Except MigrateError π)
  /-- The text of a file, of which no store is asked. -/
  | read (path : String) (resume : Except FileError String → Except MigrateError π)

class Process (π : Type) (α : outParam Type) where
  next : π → Next π α

/-! ## stores -/

/-- The store of the migrated tables, which may hold the ledger too, or a store for each. -/
inductive Stores (σ η : Type) where
  | shared (store : σ)
  | separate (data : σ) (ledger : η)
  deriving DecidableEq, Repr

namespace Stores

variable {σ η : Type}

def data : Stores σ η → σ
  | .shared s => s
  | .separate s _ => s

def perform [TableStore σ] [TableStore η] (stores : Stores σ η) (target : Target) (c : Call) :
    Except StoreError c.Result × Stores σ η :=
  match stores, target with
  | .shared s, _ => let (a, s) := TableStore.perform s c; (a, .shared s)
  | .separate s h, .data => let (a, s) := TableStore.perform s c; (a, .separate s h)
  | .separate s h, .ledger => let (a, h) := TableStore.perform h c; (a, .separate s h)

def rowTotal [TableStore σ] [TableStore η] : Stores σ η → Nat
  | .shared s => TableStore.rowTotal s
  | .separate s h => TableStore.rowTotal s + TableStore.rowTotal h

end Stores

abbrev FileReader (σ : Type) := σ → String → Except FileError String

/-! ## conditions -/

structure Conditions where
  /-- The call after whose return the process is cancelled; 0 cancels it before it starts. -/
  cancelAfter : Option Nat
  /-- The calls, counted from 1, that fail without reaching the store. -/
  fault : Nat → Option StoreError

namespace Conditions

def calm : Conditions := ⟨none, fun _ => none⟩

/-- Whether the process stands cancelled after `made` calls. A call that did not reach the store cancels nothing. -/
def cancelled (cond : Conditions) (made : Nat) : Bool :=
  match cond.cancelAfter with
  | none => false
  | some n => n ≤ made && (n == 0 || (cond.fault n).isNone)

end Conditions

/-! ## following a process -/

/-- What a process did: its calls in order, the stores after them, and how it ended, if it did. -/
structure Course (σ η α : Type) where
  calls : List (Target × Call)
  stores : Stores σ η
  outcome : Option (Except MigrateError α)

section follow

variable {σ η π α : Type} [TableStore σ] [TableStore η] [Process π α]

/-- A call under the conditions: it is counted, and reaches the store unless it is to fail. -/
def performUnder (cond : Conditions) (made : Nat) (stores : Stores σ η) (target : Target) (c : Call) :
    Except StoreError c.Result × Stores σ η :=
  match cond.fault (made + 1) with
  | some e => (.error e, stores)
  | none => stores.perform target c

/-- Carries the process on for at most `fuel` transitions, `made` calls having been made before. -/
def follow (files : FileReader σ) (cond : Conditions) : Nat → Nat → Stores σ η → π → Course σ η α
  | 0, _, stores, _ => ⟨[], stores, none⟩
  | fuel + 1, made, stores, p =>
    match Process.next p with
    | .done outcome => ⟨[], stores, some outcome⟩
    | .checkpoint go =>
      if cond.cancelled made then ⟨[], stores, some (.error .cancelled)⟩ else follow files cond fuel made stores go
    | .call guarded target c resume =>
      if guarded && cond.cancelled made then ⟨[], stores, some (.error .cancelled)⟩
      else
        let (answer, stores) := performUnder cond made stores target c
        match resume answer with
        | .error e => ⟨[(target, c)], stores, some (.error e)⟩
        | .ok p =>
          let rest := follow files cond fuel (made + 1) stores p
          { rest with calls := (target, c) :: rest.calls }
    | .read path resume =>
      match resume (files stores.data path) with
      | .error e => ⟨[], stores, some (.error e)⟩
      | .ok p => follow files cond fuel made stores p

end follow

end TableMigrations
