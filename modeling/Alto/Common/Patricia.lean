import Alto.Common.Prefix
import Alto.Lib.Radix

/-!
# The Patricia tree

`common/cpp/src/lib/patricia.cpp`. A `patricia_node_t` pointer is a place in the tree
(`Patricia.Loc`): the frames of its zipper are the `parent` pointers, so `patricia_lookup` and
`patricia_remove` climb and relink through them as the source does. A node's `prefix` and `data`
are one optional entry, since `data` is only set on nodes that hold a prefix.

The byte loops of `comp_with_mask` and of the search for the first differing bit are modelled on
bits. `New_Prefix` allocates four address bytes for an `AF_INET` prefix; what a bit test reads
behind them is the parameter `behind`.
-/

namespace Alto.Patricia

open Lib Lib.Radix

/-- `PATRICIA_MAXBITS`, and the `maxbits` every `PatriciaTrie` uses. -/
def maxBits : Nat := 128

/-- The `prefix` and `data` of a node. `data` is a null pointer until the caller of
`patricia_lookup` sets it. -/
structure Entry (T : Type) where
  pfx : IPPrefix
  data : Option T
  deriving DecidableEq

variable {T : Type}

/-- The bits at which a stored prefix sits in the tree. The family is not part of it. -/
def Entry.key (e : Entry T) : List Bool := e.pfx.bits

abbrev Tree (T : Type) := Radix (Entry T)

/-- The shape every `PatriciaTrie` keeps. -/
abbrev WF (t : Tree T) : Prop := Radix.WF Entry.key [] t

/-! ## Bit tests -/

/-- The bits of a stored prefix; no bit behind its length is ever tested. -/
def touchar (p : IPPrefix) (i : Nat) : Bool := p.bits.getD i false

/-- `BIT_TEST (addr[i >> 3], 0x80 >> (i & 0x07))` on the prefix passed to an operation. -/
def bitTest (p : IPPrefix) (behind : Nat → Bool) (i : Nat) : Bool :=
  if i < p.family.maxLength then p.bits.getD i false else behind i

/-- `comp_with_mask`: the first `mask` bits agree. -/
def compWithMask (a b : Nat → Bool) (mask : Nat) : Bool := (List.range mask).all fun i => a i == b i

/-- The `differ_bit` loop of `patricia_lookup`: the first differing bit below `check`, else `check`. -/
def differBit (a b : Nat → Bool) (check : Nat) : Nat :=
  ((List.range check).find? fun i => a i != b i).getD check

/-! ## Searching -/

/-- A pointer to a node of the tree. -/
structure Loc (T : Type) where
  frames : List (Frame (Entry T))
  sub : Tree T

/-- The tree a pointer points into. -/
def Loc.tree (loc : Loc T) : Tree T := plug loc.frames loc.sub

/-- `patricia_search_exact`, from the node `t` whose parents are `fs`. -/
def searchExact (addr : Nat → Bool) (bitlen : Nat) :
    List (Frame (Entry T)) → Tree T → Option (Loc T)
  | _, nil => none
  | fs, node b e l r =>
    if b < bitlen then
      if addr b then searchExact addr bitlen (⟨b, e, true, l⟩ :: fs) r
      else searchExact addr bitlen (⟨b, e, false, r⟩ :: fs) l
    else if bitlen < b then none
    else match e with
      | none => none
      | some a => if compWithMask (touchar a.pfx) addr bitlen then some ⟨fs, node b e l r⟩ else none

theorem searchExact_node (addr : Nat → Bool) (bitlen : Nat) (fs : List (Frame (Entry T))) (b : Nat)
    (e : Option (Entry T)) (l r : Tree T) :
    searchExact addr bitlen fs (node b e l r) =
      if b < bitlen then
        if addr b then searchExact addr bitlen (⟨b, e, true, l⟩ :: fs) r
        else searchExact addr bitlen (⟨b, e, false, r⟩ :: fs) l
      else if bitlen < b then none
      else match e with
        | none => none
        | some a =>
          if compWithMask (touchar a.pfx) addr bitlen then some ⟨fs, node b e l r⟩ else none := by
  cases e <;> rfl

/-- `patricia_search_exact (tree, prefix)`. -/
def patriciaSearchExact (t : Tree T) (p : IPPrefix) (behind : Nat → Bool) : Option (Loc T) :=
  searchExact (bitTest p behind) p.length [] t

/-- The stack `patricia_search_best2` collects on the way down, last pushed first. The node at
which the descent stops is pushed too (`inclusive`), whatever its bit. -/
def searchStack (addr : Nat → Bool) (bitlen : Nat) : Tree T → List (Entry T) → List (Entry T)
  | nil, stack => stack
  | node b e l r, stack =>
    if b < bitlen then
      if addr b then searchStack addr bitlen r (e.toList ++ stack)
      else searchStack addr bitlen l (e.toList ++ stack)
    else e.toList ++ stack

/-- `patricia_search_best`. -/
def patriciaSearchBest (t : Tree T) (p : IPPrefix) (behind : Nat → Bool) : Option (Entry T) :=
  (searchStack (bitTest p behind) p.length t []).find?
    fun e => compWithMask (touchar e.pfx) (bitTest p behind) e.pfx.length

/-! ## Insertion -/

/-- `node->bit < patricia->maxbits && BIT_TEST (...)`: whether to go to the right. -/
def turn (addr : Nat → Bool) (b : Nat) : Bool := decide (b < maxBits) && addr b

/-- The subtree on a side. -/
def side (right : Bool) (l r : Tree T) : Tree T := if right then r else l

/-- The first loop of `patricia_lookup`: down to a node that holds a prefix. -/
def descend (addr : Nat → Bool) (bitlen : Nat) : List (Frame (Entry T)) → Tree T → Loc T
  | fs, nil => ⟨fs, nil⟩
  | fs, node b e l r =>
    if b < bitlen ∨ e = none then
      if turn addr b then
        match r with
        | nil => ⟨fs, node b e l nil⟩
        | node b' e' l' r' => descend addr bitlen (⟨b, e, true, l⟩ :: fs) (node b' e' l' r')
      else
        match l with
        | nil => ⟨fs, node b e nil r⟩
        | node b' e' l' r' => descend addr bitlen (⟨b, e, false, r⟩ :: fs) (node b' e' l' r')
    else ⟨fs, node b e l r⟩

/-- The second loop: `while (parent && parent->bit >= differ_bit)`. -/
def climb (differ : Nat) : List (Frame (Entry T)) → Tree T → Loc T
  | [], t => ⟨[], t⟩
  | f :: fs, t => if differ ≤ f.bit then climb differ fs (f.fill t) else ⟨f :: fs, t⟩

/-- A new node with no children. -/
def leaf (p : IPPrefix) : Tree T := node p.length (some ⟨p, none⟩) nil nil

/-- The last part of `patricia_lookup`: reuse the node reached, or link a new one in as its child,
as its parent, or as its sibling below a new glue node. -/
def link (p : IPPrefix) (addr testAddr : Nat → Bool) (differ : Nat) (loc : Loc T) : Loc T :=
  match loc.sub with
  | nil => loc
  | node b e l r =>
    if differ = p.length ∧ b = p.length then
      match e with
      | some _ => loc
      | none => ⟨loc.frames, node b (some ⟨p, none⟩) l r⟩
    else if b = differ then
      ⟨⟨b, e, turn addr b, side (!turn addr b) l r⟩ :: loc.frames, leaf p⟩
    else if p.length = differ then
      ⟨loc.frames,
        Frame.fill ⟨p.length, some ⟨p, none⟩, turn testAddr p.length, nil⟩ (node b e l r)⟩
    else ⟨⟨differ, none, turn addr differ, node b e l r⟩ :: loc.frames, leaf p⟩

/-- `patricia_lookup`: the node of a prefix, created if there is none. -/
def patriciaLookup (t : Tree T) (p : IPPrefix) (behind : Nat → Bool) : Loc T :=
  match t with
  | nil => ⟨[], leaf p⟩
  | node .. =>
    let loc := descend (bitTest p behind) p.length [] t
    match loc.sub with
    | node b (some e) _ _ =>
      let differ := differBit (bitTest p behind) (touchar e.pfx) (min b p.length)
      link p (bitTest p behind) (touchar e.pfx) differ (climb differ loc.frames loc.sub)
    | _ => loc

/-- `node->data = val`. -/
def Loc.setData (loc : Loc T) (val : T) : Loc T :=
  match loc.sub with
  | node b (some e) l r => ⟨loc.frames, node b (some { e with data := some val }) l r⟩
  | _ => loc

/-! ## Removal -/

/-- `patricia_remove`: a node with two children becomes a glue node, a leaf takes its glue parent
with it, and a node with one child is replaced by the child. -/
def patriciaRemove (loc : Loc T) : Tree T :=
  match loc.sub with
  | nil => loc.tree
  | node _ _ nil nil =>
    match loc.frames with
    | [] => nil
    | f :: fs => if f.entry = none then plug fs f.sibling else plug fs (f.fill nil)
  | node b _ (node bl el ll rl) (node br er lr rr) =>
    plug loc.frames (node b none (node bl el ll rl) (node br er lr rr))
  | node _ _ nil (node br er lr rr) => plug loc.frames (node br er lr rr)
  | node _ _ (node bl el ll rl) nil => plug loc.frames (node bl el ll rl)

end Alto.Patricia
