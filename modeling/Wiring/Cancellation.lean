/-!
Cancellation of a batch by request or by time. Tokens of one family share a flag; a deadline belongs
to one token and to those derived from it.
-/

set_option autoImplicit false

namespace Wiring

abbrev Instant := Nat

def Instant.latest : Instant := Nat.pow 2 63 * 1000 - 1

/-- The longest timeout, which ends after all times. -/
def Instant.longestTimeout : Nat := Nat.pow 2 64 * 1000 - 1

def Instant.after? (now : Instant) (timeout : Nat) : Option Instant :=
  if now + timeout ≤ latest then some (now + timeout) else none

def earlier : Option Instant → Option Instant → Option Instant
  | some a, some b => some (min a b)
  | some a, none => some a
  | none, b => b

/-- A family is named by the position of its first token. -/
structure Token where
  family : Nat
  deadline : Option Instant
  deriving DecidableEq, Repr

namespace Token

def within (t : Token) (now : Instant) (timeout : Nat) : Token :=
  { t with deadline := earlier t.deadline (now.after? timeout) }

def isExpired (t : Token) (now : Instant) : Bool :=
  match t.deadline with
  | some d => d ≤ now
  | none => false

end Token

structure Tokens where
  all : List Token := []
  cancelled : List Nat := []
  deriving DecidableEq, Repr

inductive TokenStep where
  | create
  | withTimeout (timeout : Nat)
  | child (token timeout : Nat)
  | clone (token : Nat)
  | cancel (token : Nat)
  deriving DecidableEq, Repr

namespace Tokens

def get? (ts : Tokens) (i : Nat) : Option Token := ts.all[i]?

def isCancelled (ts : Tokens) (now : Instant) (t : Token) : Bool :=
  ts.cancelled.contains t.family || t.isExpired now

def fresh (ts : Tokens) : Token := ⟨ts.all.length, none⟩

def push (ts : Tokens) (t : Token) : Tokens := { ts with all := ts.all ++ [t] }

/-- A step on a token that was never made does nothing. -/
def step (ts : Tokens) (now : Instant) : TokenStep → Tokens
  | .create => ts.push ts.fresh
  | .withTimeout timeout => ts.push (ts.fresh.within now timeout)
  | .child i timeout => ((ts.get? i).map fun t => ts.push (t.within now timeout)).getD ts
  | .clone i => ((ts.get? i).map ts.push).getD ts
  | .cancel i =>
    ((ts.get? i).map fun t => { ts with cancelled := t.family :: ts.cancelled }).getD ts

def readings (ts : Tokens) (now : Instant) : List (Bool × Bool) :=
  ts.all.map fun t => (ts.isCancelled now t, t.isExpired now)

end Tokens

end Wiring
