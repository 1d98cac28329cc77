import Alto.Common.Patricia
import Alto.Lib.StdMap

/-!
# The value trie

`common/cpp/src/include/p4p/detail/patricia_trie.h`. A node's `data` points to a key of the value
cache; the cache holds one key for each value, so the pointer is modelled by the value and the
comparison of pointers by the comparison of values. A pointer to a node that is kept while the tree
changes is modelled by the node's prefix (`PatriciaTrie.nodeOf`).
-/

namespace Alto

open Lib Patricia

/-- The bytes behind the four address bytes that `New_Prefix` allocates for an `AF_INET` prefix. -/
abbrev Behind := IPPrefix → Nat → Bool

/-- `p4p::detail::PatriciaTrie<T>`. -/
structure PatriciaTrie (T : Type) [LinearOrder T] where
  tree : Patricia.Tree T
  valCache : StdMap T Nat

namespace PatriciaTrie

variable {T : Type} [LinearOrder T]

/-- `PatriciaTrie<T>::PatriciaTrie`. -/
def empty : PatriciaTrie T := ⟨.nil, ∅⟩

/-- Add `val` to the cache if it isn't there already and increment its reference count. -/
def countUp (cache : StdMap T Nat) (val : T) : StdMap T Nat :=
  (cache.insertIfNew val 0).modify val (· + 1)

/-- `if (--itr->second == 0) val_cache_.erase(val)`. -/
def countDown (cache : StdMap T Nat) (val : T) : StdMap T Nat :=
  if cache[val]? = some 1 then cache.erase val else cache.modify val (· - 1)

/-- `PatriciaTrie<T>::add`. -/
def add (behind : Behind) (trie : PatriciaTrie T) (pfx : IPPrefix) (val : T) :
    Bool × PatriciaTrie T :=
  match patriciaSearchExact trie.tree pfx (behind pfx) with
  | some ⟨_, .node _ (some e) _ _⟩ => (e.data == some val, trie)
  | _ =>
    let node := patriciaLookup trie.tree pfx (behind pfx)
    (true, ⟨(node.setData val).tree, countUp trie.valCache val⟩)

/-- `PatriciaTrie<T>::remove(prefix, val)`. -/
def remove (behind : Behind) (trie : PatriciaTrie T) (pfx : IPPrefix) (val : T) :
    Bool × PatriciaTrie T :=
  match patriciaSearchExact trie.tree pfx (behind pfx) with
  | some ⟨fs, .node b (some e) l r⟩ =>
    if e.data ≠ some val then (false, trie)
    else (true, ⟨patriciaRemove ⟨fs, .node b (some e) l r⟩, countDown trie.valCache val⟩)
  | _ => (false, trie)

/-- The node a kept pointer points to: the one that holds the prefix. -/
def nodeOf (t : Patricia.Tree T) (pfx : IPPrefix) : Option (Loc T) :=
  searchExact (touchar pfx) pfx.length [] t

/-- `patricia_remove (tree_, node)` for a kept pointer. -/
def removeNode (t : Patricia.Tree T) (pfx : IPPrefix) : Patricia.Tree T :=
  match nodeOf t pfx with
  | some loc => patriciaRemove loc
  | none => t

/-- `PatriciaTrie<T>::remove(val)`. -/
def removeVal (trie : PatriciaTrie T) (val : T) : Bool × PatriciaTrie T :=
  if val ∈ trie.valCache then
    let removedNodes := (trie.tree.walk.filter fun e => e.data == some val).map (·.pfx)
    (true, ⟨removedNodes.foldl removeNode trie.tree, trie.valCache.erase val⟩)
  else (false, trie)

/-- `PatriciaTrie<T>::clear`. -/
def clear (_ : PatriciaTrie T) : PatriciaTrie T := empty

/-- `PatriciaTrie<T>::lookup`: the value and, in the optional out parameter, the matching prefix. -/
def lookup (behind : Behind) (trie : PatriciaTrie T) (address : IPPrefix) :
    Option (IPPrefix × T) := do
  let e ← patriciaSearchBest trie.tree address (behind address)
  let val ← e.data
  return (e.pfx, val)

/-- `PatriciaTrie<T>::has_prefixes`. -/
def hasPrefixes (trie : PatriciaTrie T) (val : T) : Bool := trie.valCache.contains val

/-- `PatriciaTrie<T>::get_prefixes`. -/
def getPrefixes (trie : PatriciaTrie T) (val : T) : List IPPrefix :=
  (trie.tree.walk.filter fun e => e.data == some val).map (·.pfx)

/-- `PatriciaTrie<T>::enumerate_values`. -/
def enumerateValues (trie : PatriciaTrie T) : List T := trie.valCache.keys

/-- The index of each val in the result vector; a repeated val gets the last one. -/
def valToIdx (result : List (T × List IPPrefix)) : StdMap T Nat :=
  result.zipIdx.foldl (fun idx x => idx.insert x.1.1 x.2) ∅

/-- Put a prefix in the vector of its val. -/
def putPrefix (valToIdx : StdMap T Nat) (result : List (T × List IPPrefix)) (e : Entry T) :
    List (T × List IPPrefix) :=
  match e.data.bind (valToIdx[·]?) with
  | some i => result.modify i fun x => (x.1, x.2 ++ [e.pfx])
  | none => result

/-- If result is initially empty, it is filled with all vals. -/
def enumStart (trie : PatriciaTrie T) (result : List (T × List IPPrefix)) :
    List (T × List IPPrefix) :=
  if result.isEmpty then trie.valCache.keys.map fun v => (v, []) else result

/-- `PatriciaTrie<T>::enumerate`. -/
def enumerate (trie : PatriciaTrie T) (result : List (T × List IPPrefix)) :
    List (T × List IPPrefix) :=
  trie.tree.walk.foldl (putPrefix (valToIdx (trie.enumStart result))) (trie.enumStart result)

/-- One entry of `PatriciaTrie<T>::copy_from`. -/
def copyEntry (behind : Behind) (trie : PatriciaTrie T) (e : Entry T) : PatriciaTrie T :=
  let node := patriciaLookup trie.tree e.pfx (behind e.pfx)
  match e.data with
  | some val => ⟨(node.setData val).tree, countUp trie.valCache val⟩
  | none => ⟨node.tree, trie.valCache⟩

/-- `PatriciaTrie<T>::copy_from`, into any trie. -/
def copyFrom (behind : Behind) (rhs : PatriciaTrie T) : PatriciaTrie T :=
  rhs.tree.walk.foldl (copyEntry behind) empty

end PatriciaTrie

end Alto
