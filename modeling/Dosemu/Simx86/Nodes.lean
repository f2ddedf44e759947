import Dosemu.Lib.KeyedList
import Dosemu.Lib.Run
import Dosemu.Simx86.PageProtect

/-!
# Nodes of translated code

The translated sequences are kept in a collector.  The two exits of a node, of
its taken and its not-taken branch, may be patched to jump to another node; a
node has a list of the exits that jump to it, so that they can be patched back
when it is removed.  A range of guest memory that is written to loses all nodes
whose code it meets.

This module has the collector, the linker and the walk over a range.  Nodes are
named by numbers that stand for their addresses in the host; a node is not
removed while it is executed.
-/

namespace Dosemu
namespace Simx86

open KeyedList

/-! ## The collector -/

/-- The two branches of a node, `'T'` and `'N'`. -/
inductive Branch
  | taken
  | notTaken
deriving DecidableEq, Repr

/-- The code at a patch point. -/
inductive Exit
  | unlinked
  | jump (addr : Nat)
deriving DecidableEq, Repr

/-- `linkdesc`, with the code at its patch point. -/
structure LinkDesc where
  link : Nat
  target : Nat
  ref : Option Nat
  code : Exit
deriving DecidableEq, Repr

/-- A link that is not linked. -/
def LinkDesc.cut (l : LinkDesc) : LinkDesc :=
  { l with ref := none, code := .unlinked }

/-- `TNode`; `key` and `seqlen` are the guest range. -/
structure TNode where
  range : GuestRange
  addr : Nat
  trap : Bool
  selfLink : Bool
  clinkT : LinkDesc
  clinkN : LinkDesc
  bkr : List (Nat × Branch)
deriving DecidableEq

namespace TNode

/-- The guest address of the node. -/
def key (n : TNode) : Nat :=
  n.range.addr

/-- `clink_t` and `clink_nt`. -/
def slot (n : TNode) : Branch → LinkDesc
  | .taken => n.clinkT
  | .notTaken => n.clinkN

/-- Write to `clink_t` or `clink_nt`. -/
def setSlot (n : TNode) (b : Branch) (l : LinkDesc) : TNode :=
  match b with
  | .taken => { n with clinkT := l }
  | .notTaken => { n with clinkN := l }

end TNode

/-- The maps of translated code, the collector and whether nodes are linked. -/
structure Jit where
  marks : Marks
  tree : AList fun _ : Nat => TNode
  useLinker : Bool

namespace Jit

/-- The live node behind a pointer. -/
def node (s : Jit) (g : Nat) : Option TNode :=
  s.tree.lookup g

/-- Write through a pointer to a node. -/
def modifyNode (s : Jit) (g : Nat) (f : TNode → TNode) : Jit :=
  { s with tree := modify s.tree g f }

/-- `FindTree`. -/
def findTree (s : Jit) (key : Nat) : Option Nat :=
  (s.tree.entries.find? fun e => e.2.key == key).map Sigma.fst

/-- A node as `ProduceCode` makes it: nothing links to it and it links to
nothing. -/
structure NewNode where
  range : GuestRange
  addr : Nat
  trap : Bool
  linkT : Nat
  targetT : Nat
  linkN : Nat
  targetN : Nat
  addr_ne : addr ≠ 0

/-- The new node. -/
def NewNode.toNode (n : NewNode) : TNode where
  range := n.range
  addr := n.addr
  trap := n.trap
  selfLink := false
  clinkT := ⟨n.linkT, n.targetT, none, .unlinked⟩
  clinkN := ⟨n.linkN, n.targetN, none, .unlinked⟩
  bkr := []

/-- `Move2Tree`; the allocator gives a place where no live node is. -/
def move2Tree (s : Jit) (g : Nat) (n : NewNode) : Option Jit := do
  cAssert (s.node g = none)
  pure { s with tree := s.tree.insert g n.toNode }

/-! ## The linker -/

/-- `linknode`. -/
def linknode (s : Jit) (lg g : Nat) (b : Branch) : Option Jit := do
  let src ← s.node lg
  let dst ← s.node g
  let l := src.slot b
  if l.target ≠ dst.key ∨ l.link = 0 ∨ dst.trap ∨ src.trap then pure s
  else
    -- busy links leave dosemu
    cAssert (l.ref = none)
    let s := s.modifyNode lg fun n =>
      n.setSlot b { n.slot b with ref := some g, code := .jump dst.addr }
    pure (s.modifyNode g fun n =>
      { n with bkr := (lg, b) :: n.bkr, selfLink := n.selfLink || g == lg })

/-- `NodeLinker`; the first node may be absent. -/
def nodeLinker (s : Jit) (lg : Option Nat) (g : Nat) : Option Jit :=
  if !s.useLinker then some s
  else
    match lg with
    | none => some s
    | some lg => do
        let s ← s.linknode lg g .taken
        s.linknode lg g .notTaken

/-- `unlinknode`: the list of the other node is searched for the node alone. -/
def unlinknode (s : Jit) (g : Nat) (b : Branch) : Option Jit := do
  let n ← s.node g
  match (n.slot b).ref with
  | none => pure s
  | some h => do
      let dst ← s.node h
      cAssert (dst.bkr.any fun e => e.1 == g)
      let s := s.modifyNode h fun n => { n with bkr := n.bkr.eraseP fun e => e.1 == g }
      pure (s.modifyNode g fun n => n.setSlot b (n.slot b).cut)

/-- The loop of `NodeUnlinker` over the exits that jump to the node. -/
def unlinkBack (g : Nat) : List (Nat × Branch) → Jit → Option Jit
  | [], s => some s
  | (h, b) :: rest, s => do
      let src ← s.node h
      let n ← s.node g
      cAssert ((src.slot b).target = n.key)
      let s := s.modifyNode h fun n => n.setSlot b (n.slot b).cut
      unlinkBack g rest (s.modifyNode g fun n => { n with bkr := rest })

/-- `NodeUnlinker`. -/
def nodeUnlinker (s : Jit) (g : Nat) : Option Jit :=
  if !s.useLinker then some s
  else do
    let n ← s.node g
    let s ← unlinkBack g n.bkr s
    let s ← s.unlinknode g .taken
    s.unlinknode g .notTaken

/-- The assertion of `RemoveNode_unlocked`. -/
def Loose (n : TNode) : Prop :=
  n.bkr = [] ∧ n.clinkT.ref = none ∧ n.clinkN.ref = none ∧ n.addr ≠ 0

instance (n : TNode) : Decidable (Loose n) :=
  inferInstanceAs (Decidable (_ ∧ _))

/-- `RemoveNode_unlocked`. -/
def removeNode (s : Jit) (g : Nat) : Option Jit := do
  let n ← s.node g
  let marks ← s.marks.eUnmarkpage n.range
  let s ← { s with marks := marks }.nodeUnlinker g
  let n ← s.node g
  cAssert (Loose n)
  pure { s with tree := s.tree.erase g }

/-! ## Invalidation -/

/-- `find_node`. -/
def findNode (s : Jit) (a len : Nat) : Option (Option Nat) := do
  match ← s.marks.mFindnode a len with
  | none => pure none
  | some key =>
      let g ← s.findTree key
      pure (some g)

/-- `find_node_start`. -/
def findNodeStart (s : Jit) (a len : Nat) : Option (Option Nat) := do
  match ← s.marks.mFindnodestart a with
  | none => s.findNode a len
  | some key =>
      let g ← s.findTree key
      pure (some g)

/-- The walk of `DoInvalidateNodeRange` from a node on. -/
def invalidateFrom (al ah : Nat) : Nat → Option Nat → Jit → Option Jit
  | _, none, s => some s
  | 0, some _, _ => none
  | fuel + 1, some g, s => do
      let n ← s.node g
      if ah ≤ n.key then pure s
      else
        let ahG := n.key + n.range.len
        let s ← if al < ahG ∧ n.key < ah then s.removeNode g else pure s
        if ah ≤ ahG then pure s
        else
          let next ← s.findNode ahG (ah - ahG)
          invalidateFrom al ah fuel next s

/-- `InvalidateNodeRange`; the walk takes no more rounds than there are bytes in the
range and one. -/
def invalidateNodeRange (s : Jit) (al len : Nat) : Option Jit := do
  let g ← s.findNodeStart al len
  invalidateFrom al (al + len) (len + 1) g s

end Jit

end Simx86
end Dosemu
