import Wiring.Graph

/-!
The nodes built so far, and what is known about each key. New keys are also noted in a journal, so
that the keys of a failed attempt can be forgotten again.
-/

set_option autoImplicit false

namespace Wiring

/-- What is known about a key: its construction has begun, it has a node, or it was found to have
none. -/
inductive Status where
  | inProgress
  | done (node : Nat)
  | failed
  deriving DecidableEq, Repr

structure Store where
  nodes : List Node
  memo : Table Key Status
  journal : List Key
  deriving DecidableEq

namespace Store

def empty : Store := ⟨[], .empty, []⟩

def status? (s : Store) (k : Key) : Option Status := s.memo.get? k

/-- A key's status may change; the journal notes the key once. -/
def remember (s : Store) (k : Key) (status : Status) : Store :=
  { s with
    memo := s.memo.insert k status
    journal := if s.memo.contains k then s.journal else s.journal ++ [k] }

def rememberAll (s : Store) (ks : List Key) (status : Status) : Store :=
  ks.foldl (fun s k => s.remember k status) s

def addNode (s : Store) (n : Node) : Store := { s with nodes := s.nodes ++ [n] }

/-- The node of a value drawn from an ancestor, which is made unless the key has a node already. -/
def inherit (s : Store) (k : Key) : Nat × Store :=
  match s.status? k with
  | some (.done i) => (i, s)
  | _ => (s.nodes.length, (s.addNode ⟨k, .inherited, [], none⟩).remember k (.done s.nodes.length))

/-- Forgets the nodes and the keys that came after an earlier store. A key that was known before
keeps the status it has now. -/
def rollback (s earlier : Store) : Store where
  nodes := s.nodes.take earlier.nodes.length
  memo := (s.journal.drop earlier.journal.length).foldl (fun m k => m.erase k) s.memo
  journal := s.journal.take earlier.journal.length

def nodeKeys (s : Store) : Table Key Nat :=
  s.memo.filterMap fun _ status =>
    match status with
    | .done i => some i
    | _ => none

theorem status?_remember (s : Store) (k j : Key) (status : Status) :
    (s.remember k status).status? j = if j = k then some status else s.status? j :=
  Table.get?_insert

end Store

end Wiring
