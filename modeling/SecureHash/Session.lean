import SecureHash.Message

/-!
Sessions over named hashers.

A session goes through a list of steps, each of which names the hasher it works on,
and answers each step with a reply.  Only `create` makes a name known; any other
step on an unknown name changes nothing.  A refused step leaves the session running.
-/

namespace SecureHash
namespace Session

/-- The hashers that are known, by name.  A function, since only look-up and change
at one name are asked of it. -/
abbrev Store := String → Option Hasher

namespace Store

def empty : Store := fun _ => none

def put (s : Store) (name : String) (h : Option Hasher) : Store :=
  fun other => if other = name then h else s other

@[simp] theorem put_self (s : Store) (name : String) (h : Option Hasher) : s.put name h name = h :=
  if_pos rfl

@[simp] theorem put_of_ne (s : Store) {name other : String} (h : Option Hasher)
    (hne : other ≠ name) : s.put name h other = s other := if_neg hne

end Store

inductive Step where
  | create (name : String)
  | view (name : String)
  | update (name : String) (data : List UInt8)
  | clone (source target : String)
  | finalize (name : String)
  | finalizeInto (name : String) (out : Vector UInt8 32)
  | pad (name : String)
  | reset (name : String)
  | zeroize (name : String)
  | setBitCount (name : String) (bits : UInt64)
  | drop (name : String)

/-- What a hasher shows of itself: its buffer only as far as it is pending. -/
structure View where
  state : ChainState
  bitCount : UInt64
  pending : List UInt8
deriving DecidableEq

structure WholeView extends View where
  buffer : Block
deriving DecidableEq

def View.of (h : Hasher) : View :=
  { state := h.state, bitCount := h.bitCount, pending := h.pending }

def WholeView.of (h : Hasher) : WholeView := { View.of h with buffer := h.buffer }

inductive Reply where
  /-- No hasher has the name. -/
  | unknown
  | view (v : View)
  | whole (v : WholeView)
  | digest (d : Digest)
  | finalized (d : Digest) (v : WholeView)
  | padded (blocks : Nat) (v : WholeView)
  /-- The operation stopped with a fault, and the hasher is as shown. -/
  | refused (fault : Fault) (v : View)
  | dropped
deriving DecidableEq

/-- Run `act` on the hasher called `name`, and reply with what `reply` makes of the
result and the hasher after it. -/
def onHasher {α : Type} (name : String) (act : HasherM α) (reply : α → Hasher → Reply) :
    StateM Store Reply := do
  match (← get) name with
  | none => return .unknown
  | some h =>
    match act.run h with
    | .ok a h' =>
      modify fun s => s.put name (some h')
      return reply a h'
    | .error fault h' =>
      modify fun s => s.put name (some h')
      return .refused fault (View.of h')

def showView {α : Type} (_ : α) (h : Hasher) : Reply := .view (View.of h)

def showWhole {α : Type} (_ : α) (h : Hasher) : Reply := .whole (WholeView.of h)

def forget (name : String) : StateM Store Unit := modify fun s => s.put name none

/-- Carry out one step.  `choice` is for the blocks that the step compresses. -/
def step (choice : Strategy) : Step → StateM Store Reply
  | .create name => do
    modify fun s => s.put name (some Hasher.initial)
    return .whole (WholeView.of Hasher.initial)
  | .view name => onHasher name (pure ()) showView
  | .update name data => onHasher name (Hasher.update choice data) showView
  | .clone source target => do
    match (← get) source with
    | none => return .unknown
    | some h =>
      modify fun s => s.put target (some h)
      return .view (View.of h)
  | .finalize name => do
    let reply ← onHasher name (Hasher.finalize choice) fun d _ => .digest d
    forget name
    return reply
  | .finalizeInto name out =>
    onHasher name (Hasher.finalizeInto choice out) fun octets h =>
      .finalized ⟨octets⟩ (WholeView.of h)
  | .pad name => onHasher name (Hasher.pad choice) fun blocks h => .padded blocks (WholeView.of h)
  | .reset name => onHasher name Hasher.reset showWhole
  | .zeroize name => onHasher name Hasher.zeroize showWhole
  | .setBitCount name bits => onHasher name (Hasher.setBitCount bits) showView
  | .drop name => do
    let reply ← onHasher name (pure ()) fun _ _ => .dropped
    forget name
    return reply

/-- Carry out steps in order, each with the strategy beside it. -/
def run : List (Strategy × Step) → StateM Store (List Reply)
  | [] => return []
  | (choice, s) :: rest => do
    let reply ← step choice s
    let replies ← run rest
    return reply :: replies

end Session
end SecureHash
