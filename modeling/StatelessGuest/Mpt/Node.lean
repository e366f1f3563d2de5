import StatelessGuest.Lib.Arena
import StatelessGuest.Lib.Exec
import StatelessGuest.Mpt.Nibbles

/-!
# Nodes of the trie

The nodes of a trie are records on the heap that point to each other and are changed in place. A
node keeps its encoding and its hash once they are known; a node that the witness does not contain
is a record of its hash only. Values and paths are byte strings that nobody changes, so a node
contains them.

* `Node`, `Body`: the records (`NODE_*`).
* `nodeNewLeaf`, `nodeNewExt`, `nodeNewBranch`, `nodeNewHashed`, `nodeInvalidate`.
* `Slot`: the place that a pointer to a node is stored in.
-/

namespace StatelessGuest.Mpt

open Lib

/-- What a node consists of. A branch has a child for each nibble and the empty string for no
value. -/
inductive Body where
  | leaf (nib : Nibbles) (val : Bytes)
  | ext (nib : Nibbles) (child : Option Nat)
  | branch (children : Nibble → Option Nat) (val : Bytes)

/-- A node with its cached encoding and hash, or a hash alone. -/
inductive Node where
  | hashed (hash : Hash)
  | made (body : Body) (rlp : Option Bytes) (hash : Option Hash)

instance : Inhabited Node := ⟨.hashed 0⟩

abbrev MptM := EStateM Exn (Arena Node)

def mptFail {α : Type} (code : Nat) : MptM α := throw (.mpt code)

def ldNode (p : Nat) : MptM Node := do return (← get).load p

def stNode (p : Nat) (node : Node) : MptM Unit := modify fun h => h.store p node

def allocNode (node : Node) : MptM Nat := do
  let h ← get
  set (h.alloc node)
  return h.next

def nodeNewHashed (hash : Hash) : MptM Nat := allocNode (.hashed hash)

def nodeNewLeaf (nib : Nibbles) (val : Bytes) : MptM Nat :=
  allocNode (.made (.leaf nib val) none none)

def nodeNewExt (nib : Nibbles) (child : Option Nat) : MptM Nat :=
  allocNode (.made (.ext nib child) none none)

def nodeNewBranch : MptM Nat := allocNode (.made (.branch (fun _ => none) []) none none)

/-- Change the fields of a node that is no hash. -/
def Node.withBody (f : Body → Body) : Node → Node
  | hashed hash => hashed hash
  | made body rlp hash => made (f body) rlp hash

/-- Forget the encoding and the hash of a node that is no hash. -/
def Node.invalid : Node → Node
  | hashed hash => hashed hash
  | made body _ _ => made body none none

def nodeInvalidate (p : Nat) : MptM Unit := do
  let node ← ldNode p
  stNode p node.invalid

def Body.setVal (v : Bytes) : Body → Body
  | leaf nib _ => leaf nib v
  | ext nib child => ext nib child
  | branch children _ => branch children v

def Body.setChild (c : Option Nat) : Body → Body
  | leaf nib val => leaf nib val
  | ext nib _ => ext nib c
  | branch children val => branch children val

def Body.setChildren (i : Nibble) (c : Option Nat) : Body → Body
  | leaf nib val => leaf nib val
  | ext nib child => ext nib child
  | branch children val => branch (Function.update children i c) val

def modifyNode (p : Nat) (f : Body → Body) : MptM Unit := do
  let node ← ldNode p
  stNode p (node.withBody f)

/-- Where the pointer to a node is stored: it is the result of the operation, or a field of another
node. -/
inductive Slot where
  | result
  | child (p : Nat)
  | children (p : Nat) (i : Nibble)

/-- The pointer to store, and what becomes the result. -/
def stSlot (r : Option Nat) : Slot → Option Nat → MptM (Option Nat)
  | .result, _ => return r
  | .child p, result => do
    modifyNode p (.setChild r)
    return result
  | .children p i, result => do
    modifyNode p (.setChildren i r)
    return result

section

variable [Stray]

/-- The fields of a branch. -/
def ldBranch (p : Nat) : MptM ((Nibble → Option Nat) × Bytes) := do
  match ← ldNode p with
  | .made (.branch children val) _ _ => return (children, val)
  | _ => throw Stray.exn

end

/-! ## Runs -/

theorem ldNode_run (p : Nat) (h : Arena Node) : ldNode p h = .ok (h.load p) h := rfl

theorem stNode_run (p : Nat) (node : Node) (h : Arena Node) :
    stNode p node h = .ok () (h.store p node) := rfl

theorem allocNode_run (node : Node) (h : Arena Node) :
    allocNode node h = .ok h.next (h.alloc node) := rfl

theorem nodeInvalidate_run (p : Nat) (h : Arena Node) :
    nodeInvalidate p h = .ok () (h.store p (h.load p).invalid) := rfl

theorem modifyNode_run (p : Nat) (f : Body → Body) (h : Arena Node) :
    modifyNode p f h = .ok () (h.store p ((h.load p).withBody f)) := rfl

end StatelessGuest.Mpt
