import Luxir.Lib.Bytes

/-!
The builder of the compact trie that routes seek targets to term blocks. Only the right edge of
the trie is live while keys are added; what can no longer change is serialized from the bottom up,
so children lie before their parents and are reached by backward deltas.
-/

namespace Luxir.Index.TrieFrontier
open Lib.Bytes

abbrev Key := Bytes

def signLeaf : UInt8 := 0
def signSingle : UInt8 := 1
def signMulti : UInt8 := 2
def terminalBit : UInt8 := 4

def strategyBits : UInt8 := 0
def strategyArray : UInt8 := 1
def strategyReverseArray : UInt8 := 2

def ordWidth : Nat := 3
def maxBlocks : Nat := 0xFFFFFF
def maxLen : Nat := 255

/-- The source keeps labels, places and first ordinals in three vectors side by side. -/
structure ChildEntry where
  label : UInt8
  fp : Nat
  lo : Nat
deriving DecidableEq, Repr

structure FrontierNode where
  children : List ChildEntry
  terminal : Bool
  firstOrd : Nat
deriving DecidableEq, Repr

def commonPrefix : Key → Key → Nat
  | a :: rest, b :: others => if a = b then commonPrefix rest others + 1 else 0
  | _, _ => 0

def widen (value : Nat) : Nat → Nat → Nat
  | 0, width => width
  | rounds + 1, width =>
      if value >>> (width * 8) ≠ 0 then widen value rounds (width + 1) else width

def deltaWidth (value : Nat) : Nat := widen value 7 1

def chooseStrategy (labels : Bytes) : UInt8 :=
  let n := labels.length
  let minLabel := (labels.headD 0).toNat
  let maxLabel := (labels.getLastD 0).toNat
  let span := maxLabel - minLabel + 1
  let bitsBytes := (span + 7) / 8
  let arrayBytes := n - 1
  let reverseBytes := 1 + span - n
  if bitsBytes ≤ arrayBytes ∧ bitsBytes ≤ reverseBytes then strategyBits
  else if arrayBytes ≤ reverseBytes then strategyArray
  else strategyReverseArray

def setLabel (minLabel : UInt8) (out : Bytes) (label : UInt8) : Bytes :=
  let idx := label.toNat - minLabel.toNat
  out.set (idx / 8) (out.getD (idx / 8) 0 ||| (1 : UInt8) <<< UInt8.ofNat (idx % 8))

/-- The walk over all labels between the least and the greatest: the labels still to come, and
the absent ones so far. -/
def absentStep (state : Bytes × Bytes) (c : Nat) : Bytes × Bytes :=
  let rest := state.1.dropWhile fun label => label.toNat < c
  if rest.head?.map UInt8.toNat = some c then (rest, state.2)
  else (rest, state.2 ++ [UInt8.ofNat c])

def strategyBytes (labels : Bytes) (strategy : UInt8) : Bytes :=
  let minLabel := labels.headD 0
  let maxLabel := labels.getLastD 0
  if strategy = strategyBits then
    let span := maxLabel.toNat - minLabel.toNat + 1
    labels.foldl (setLabel minLabel) (List.replicate ((span + 7) / 8) 0)
  else if strategy = strategyArray then labels.drop 1
  else
    let between := List.range' (minLabel.toNat + 1) (maxLabel.toNat - (minLabel.toNat + 1))
    maxLabel :: (between.foldl absentStep (labels.drop 1, [])).2

def FrontierNode.header (node : FrontierNode) (sign : UInt8) (dw : Nat) (strategy : UInt8) :
    UInt8 :=
  let header := sign ||| (UInt8.ofNat (dw - 1) <<< 3) ||| (strategy <<< 6)
  if node.terminal then header ||| terminalBit else header

def maxDelta (nodeFp : Nat) (children : List ChildEntry) : Nat :=
  children.foldl (fun most child => max most (nodeFp - child.fp)) 0

def entryBytes (nodeFp dw : Nat) (child : ChildEntry) : Bytes :=
  spell dw (nodeFp - child.fp) ++ spell ordWidth child.lo

/-- What a node that is frozen at a place adds to the buffer. A leaf is asserted to be terminal. -/
def FrontierNode.toBytes (node : FrontierNode) (nodeFp : Nat) : Bytes :=
  let dw := deltaWidth (maxDelta nodeFp node.children)
  match node.children with
  | [] => [signLeaf ||| terminalBit]
  | [child] => [node.header signSingle dw 0, child.label] ++ entryBytes nodeFp dw child
  | children =>
      let labels := children.map ChildEntry.label
      let strategy := chooseStrategy labels
      let strategyData := strategyBytes labels strategy
      [node.header signMulti dw strategy, labels.headD 0, UInt8.ofNat (strategyData.length - 1)] ++
        strategyData ++ children.flatMap (entryBytes nodeFp dw)

structure TrieBuilder where
  buf : Bytes
  frontier : Nat → FrontierNode
  prevKey : Key
  nBlocks : Nat
  hasPrev : Bool

namespace TrieBuilder

def start : TrieBuilder := ⟨[], fun depth => ⟨[], depth = 0, 0⟩, [], 1, false⟩

def freezeNode (builder : TrieBuilder) (node : FrontierNode) : TrieBuilder × Nat :=
  let nodeFp := builder.buf.length
  ({ builder with buf := builder.buf ++ node.toBytes nodeFp }, nodeFp)

def appendChild (parent : FrontierNode) (label : UInt8) (fp lo : Nat) : FrontierNode :=
  { parent with children := parent.children ++ [⟨label, fp, lo⟩] }

def freezeDepth (builder : TrieBuilder) (depth : Nat) : TrieBuilder :=
  let node := builder.frontier depth
  let frozen := builder.freezeNode node
  let parent := appendChild (builder.frontier (depth - 1)) (builder.prevKey.getD (depth - 1) 0)
    frozen.2 node.firstOrd
  { frozen.1 with
    frontier := Function.update (Function.update builder.frontier (depth - 1) parent) depth
      ⟨[], false, 0⟩ }

/-- Freezes from a depth upwards, down to what the next key shares. -/
def freezeDown (shared : Nat) : Nat → TrieBuilder → TrieBuilder
  | 0, builder => builder
  | depth + 1, builder =>
      if depth + 1 > shared then freezeDown shared depth (builder.freezeDepth (depth + 1))
      else builder

/-- The keys are asserted to increase, and the ordinals to follow each other. -/
def add (builder : TrieBuilder) (key : Key) (ord : Nat) : TrieBuilder :=
  let cp := if builder.hasPrev then commonPrefix key builder.prevKey else 0
  let builder :=
    if builder.hasPrev then freezeDown cp builder.prevKey.length builder else builder
  let frontier := (List.range' (cp + 1) (key.length - cp)).foldl
    (fun frontier depth => Function.update frontier depth ⟨[], false, ord⟩) builder.frontier
  let last := { frontier key.length with terminal := true }
  { builder with
    frontier := Function.update frontier key.length last
    prevKey := key
    hasPrev := true
    nBlocks := ord + 1 }

/-- The bytes, which end in zeros for the loads of the reader, and the place of the root. -/
def finish (builder : TrieBuilder) : Bytes × Nat :=
  let builder :=
    if builder.hasPrev then freezeDown 0 builder.prevKey.length builder else builder
  let frozen := builder.freezeNode (builder.frontier 0)
  (frozen.1.buf ++ List.replicate 8 0, frozen.2)

end TrieBuilder

end Luxir.Index.TrieFrontier
