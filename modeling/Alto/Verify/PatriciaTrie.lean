import Alto.Common.PatriciaTrie
import Alto.Verify.Patricia

/-!
# The value trie is a longest-prefix-match map

`PatriciaTrie` against a finite map from prefixes to values. `Inv` ties the value cache to the
tree: the reference count of a value is the number of nodes that point to it. One lemma for each
operation says what becomes of the list of entries; the map is read off that list (`Represents`).

The tree does not distinguish the address families, so `add` and `remove` only follow the map as
long as no prefix of the other family with the same bits is in the way (`Op.Free`), and `lookup`
only on queries that no stored prefix hides (`Clear`).
-/

namespace Alto

open Lib Lib.Radix Patricia

namespace PatriciaTrie

variable {T : Type} [LinearOrder T]

/-! ## Entries and reference counts -/

/-- The number of entries that point to a value. -/
def countVal (es : List (Entry T)) (val : T) : Nat := es.countP fun e => e.data == some val

/-- The invariant of a trie. -/
structure Inv (trie : PatriciaTrie T) : Prop where
  wf : WF trie.tree
  valued : ∀ e ∈ trie.tree.walk, e.data.isSome
  count : ∀ val, trie.valCache[val]? =
    if countVal trie.tree.walk val = 0 then none else some (countVal trie.tree.walk val)

theorem countVal_perm {es es' : List (Entry T)} (h : es.Perm es') (val : T) :
    countVal es val = countVal es' val := h.countP_eq _

theorem countVal_cons (e : Entry T) (es : List (Entry T)) (val : T) :
    countVal (e :: es) val = countVal es val + if e.data = some val then 1 else 0 := by
  simp [countVal, List.countP_cons]

theorem countVal_eq_zero {es : List (Entry T)} {val : T} :
    countVal es val = 0 ↔ ∀ e ∈ es, e.data ≠ some val := by
  simp [countVal]

theorem get_countUp (cache : StdMap T Nat) (val u : T) :
    (countUp cache val)[u]? = if val = u then some (cache[val]?.getD 0 + 1) else cache[u]? := by
  unfold countUp
  rw [Std.ExtTreeMap.getElem?_modify]
  simp only [compare_eq_iff_eq, StdMap.get_insertIfNew]
  by_cases h : val = u
  · subst h
    cases hc : cache[val]? with
    | none => simp
    | some n => simp
  · simp [h]

theorem get_countDown (cache : StdMap T Nat) (val u : T) :
    (countDown cache val)[u]? =
      if val = u then (if cache[val]? = some 1 then none else cache[val]?.map (· - 1))
      else cache[u]? := by
  unfold countDown
  by_cases h : val = u
  · subst h
    split
    · simp
    · simp
  · split
    · simp [StdMap.get_erase, h]
    · rw [Std.ExtTreeMap.getElem?_modify]
      simp [h]

theorem Inv.get_eq_none {trie : PatriciaTrie T} (hinv : Inv trie) {val : T} :
    trie.valCache[val]? = none ↔ ∀ e ∈ trie.tree.walk, e.data ≠ some val := by
  rw [hinv.count val, ← countVal_eq_zero]
  split <;> simp_all

/-- Adding an entry and counting its value up keeps the invariant. -/
theorem Inv.push {trie : PatriciaTrie T} (hinv : Inv trie) {t : Patricia.Tree T} (hwf : WF t) {p : IPPrefix}
    {val : T} (hperm : t.walk.Perm (⟨p, some val⟩ :: trie.tree.walk)) :
    Inv ⟨t, countUp trie.valCache val⟩ where
  wf := hwf
  valued e he := by
    rcases List.mem_cons.1 (hperm.mem_iff.1 he) with rfl | he
    · rfl
    · exact hinv.valued e he
  count u := by
    have hc := hinv.count u
    simp only [get_countUp, countVal_perm hperm, countVal_cons, Option.some.injEq]
    by_cases h : val = u
    · subst h
      have hget : trie.valCache[val]?.getD 0 = countVal trie.tree.walk val := by
        rw [hc]
        split <;> simp_all
      simp [hget]
    · simpa [h] using hc

/-- Removing an entry and counting its value down keeps the invariant. -/
theorem Inv.pop {trie : PatriciaTrie T} (hinv : Inv trie) {t : Patricia.Tree T} (hwf : WF t) {e : Entry T}
    {val : T} (he : e.data = some val) (hperm : trie.tree.walk.Perm (e :: t.walk)) :
    Inv ⟨t, countDown trie.valCache val⟩ where
  wf := hwf
  valued x hx := hinv.valued x (hperm.mem_iff.2 (List.mem_cons_of_mem e hx))
  count u := by
    have hc := hinv.count u
    rw [countVal_perm hperm, countVal_cons, he] at hc
    simp only [get_countDown]
    by_cases h : val = u
    · subst h
      rw [hc]
      simp only [↓reduceIte, Nat.add_eq_zero_iff, one_ne_zero, and_false, Option.some.injEq,
        Nat.add_eq_right, Option.map_some, Nat.add_sub_cancel]
    · simpa [h] using hc

/-! ## Adding and removing -/

theorem add_spec {trie : PatriciaTrie T} (hinv : Inv trie) (behind : Behind) (p : IPPrefix)
    (val : T) :
    (∃ e ∈ trie.tree.walk, e.key = p.bits ∧ trie.add behind p val = (e.data == some val, trie)) ∨
    ((∀ e ∈ trie.tree.walk, e.key ≠ p.bits) ∧ (trie.add behind p val).1 = true ∧
      Inv (trie.add behind p val).2 ∧
      (trie.add behind p val).2.tree.walk.Perm (⟨p, some val⟩ :: trie.tree.walk)) := by
  rcases searchExact_cases hinv.wf p (behind p) with ⟨fs, b, e, l, r, hs, -, he, hk⟩ | ⟨hs, habs⟩
  · exact Or.inl ⟨e, he, hk, by simp [add, hs]⟩
  · refine Or.inr ⟨habs, by simp [add, hs], ?_⟩
    obtain ⟨hwf, hperm, b, l, r, hsub⟩ := patriciaLookup_spec hinv.wf p (behind p) habs
    obtain ⟨hwf', ctx, h1, h2⟩ := setData_spec hwf hsub val
    have hctx : ctx.Perm trie.tree.walk := (List.perm_cons _).1 (h1.symm.trans hperm)
    have hperm' := h2.trans (hctx.cons _)
    simp only [add, hs]
    exact ⟨hinv.push hwf' hperm', hperm'⟩

theorem remove_spec {trie : PatriciaTrie T} (hinv : Inv trie) (behind : Behind) (p : IPPrefix)
    (val : T) :
    (∃ e ∈ trie.tree.walk, e.key = p.bits ∧ e.data = some val ∧
      (trie.remove behind p val).1 = true ∧ Inv (trie.remove behind p val).2 ∧
      trie.tree.walk.Perm (e :: (trie.remove behind p val).2.tree.walk)) ∨
    ((∀ e ∈ trie.tree.walk, e.key = p.bits → e.data ≠ some val) ∧
      trie.remove behind p val = (false, trie)) := by
  rcases searchExact_cases hinv.wf p (behind p) with ⟨fs, b, e, l, r, hs, ht, he, hk⟩ | ⟨hs, habs⟩
  · by_cases hd : e.data = some val
    · refine Or.inl ⟨e, he, hk, hd, ?_⟩
      obtain ⟨hwf, hperm⟩ := patriciaRemove_spec (ht.symm ▸ hinv.wf) rfl
      rw [ht] at hperm
      simp only [remove, hs, hd, ne_eq, not_true_eq_false, ↓reduceIte]
      exact ⟨trivial, hinv.pop hwf hd hperm, hperm⟩
    · refine Or.inr ⟨fun x hx hxk => ?_, by simp [remove, hs, hd]⟩
      rwa [hinv.wf.key_inj hx he (hxk.trans hk.symm)]
  · exact Or.inr ⟨fun e he hk => absurd hk (habs e he), by simp [remove, hs]⟩

omit [LinearOrder T] in
theorem removeNode_spec {t : Patricia.Tree T} (hwf : WF t) {e : Entry T} (he : e ∈ walk t) :
    WF (removeNode t e.pfx) ∧ (walk t).Perm (e :: walk (removeNode t e.pfx)) := by
  have haddr : touchar e.pfx = bitTest e.pfx fun _ => false := by
    funext i
    unfold bitTest touchar
    split
    · rfl
    · next h =>
      have : e.pfx.bits.length ≤ i := Nat.le_trans e.pfx.fits (Nat.not_lt.1 h)
      simp [List.getD_eq_getElem?_getD, this]
  have hnode : nodeOf t e.pfx = patriciaSearchExact t e.pfx fun _ => false := by
    unfold nodeOf patriciaSearchExact
    rw [haddr]
  rcases searchExact_cases hwf e.pfx (fun _ => false) with ⟨fs, b, x, l, r, hs, ht, hx, hk⟩ | ⟨-, h⟩
  · obtain rfl := hwf.key_inj hx he hk
    obtain ⟨hwf', hperm⟩ := patriciaRemove_spec (ht.symm ▸ hwf) rfl
    rw [ht] at hperm
    simp only [removeNode, hnode, hs]
    exact ⟨hwf', hperm⟩
  · exact absurd rfl (h e he)

omit [LinearOrder T] in
theorem foldl_removeNode_spec {t : Patricia.Tree T} (hwf : WF t) {es rest : List (Entry T)}
    (hperm : (walk t).Perm (es ++ rest)) :
    WF ((es.map (·.pfx)).foldl removeNode t) ∧
      (walk ((es.map (·.pfx)).foldl removeNode t)).Perm rest := by
  induction es generalizing t with
  | nil => exact ⟨hwf, hperm⟩
  | cons e es ih =>
    obtain ⟨hwf', hperm'⟩ := removeNode_spec hwf (hperm.mem_iff.2 List.mem_cons_self)
    exact ih hwf' ((List.perm_cons e).1 (hperm'.symm.trans hperm))

theorem removeVal_spec {trie : PatriciaTrie T} (hinv : Inv trie) (val : T) :
    ((trie.removeVal val).1 = true ↔ ∃ e ∈ trie.tree.walk, e.data = some val) ∧
      Inv (trie.removeVal val).2 ∧
      (trie.removeVal val).2.tree.walk.Perm (trie.tree.walk.filter fun e => e.data ≠ some val) := by
  have hmem : val ∈ trie.valCache ↔ ∃ e ∈ trie.tree.walk, e.data = some val := by
    rw [StdMap.mem_iff_get, ← not_iff_not]
    simp only [not_exists, not_and]
    exact Option.eq_none_iff_forall_ne_some.symm.trans hinv.get_eq_none
  by_cases h : val ∈ trie.valCache
  · have hsplit : trie.tree.walk.Perm ((trie.tree.walk.filter fun e => e.data == some val) ++
        (trie.tree.walk.filter fun e => e.data ≠ some val)) := by
      have := (List.filter_append_perm (fun e : Entry T => e.data == some val) trie.tree.walk).symm
      simpa [bne, ← beq_eq_decide] using this
    obtain ⟨hwf, hperm⟩ := foldl_removeNode_spec hinv.wf hsplit
    simp only [removeVal, h, ↓reduceIte]
    refine ⟨iff_of_true trivial (hmem.1 h), ⟨hwf, fun e he => ?_, fun u => ?_⟩, hperm⟩
    · exact hinv.valued e (List.mem_of_mem_filter (hperm.mem_iff.1 he))
    · have hc := hinv.count u
      simp only [StdMap.get_erase, countVal_perm hperm]
      by_cases hu : val = u
      · subst hu
        have hz : countVal (trie.tree.walk.filter fun e => e.data ≠ some val) val = 0 :=
          countVal_eq_zero.2 fun e he => by simpa using (List.mem_filter.1 he).2
        rw [hz]
        simp
      · have hz : countVal (trie.tree.walk.filter fun e => e.data ≠ some val) u =
            countVal trie.tree.walk u := by
          simp only [countVal, List.countP_filter]
          refine List.countP_congr fun e _ => ?_
          by_cases hd : e.data = some u
          · simp [hd, Ne.symm hu]
          · simp [hd]
        rw [hz, if_neg hu]
        exact hc
  · simp only [removeVal, h, ↓reduceIte]
    refine ⟨iff_of_false Bool.false_ne_true (fun hex => h (hmem.2 hex)), hinv, ?_⟩
    rw [List.filter_eq_self.2]
    intro e he
    have : e.data ≠ some val := fun hd => h (hmem.2 ⟨e, he, hd⟩)
    simpa using this

theorem inv_empty : Inv (empty : PatriciaTrie T) where
  wf := .nil _
  valued _ h := nomatch h
  count _ := by simp [empty, countVal]

/-! ## Copying -/

theorem foldl_copyEntry_spec (behind : Behind) {trie : PatriciaTrie T} (hinv : Inv trie)
    {es : List (Entry T)} (hval : ∀ e ∈ es, e.data.isSome)
    (hnodup : ((trie.tree.walk ++ es).map Entry.key).Nodup) :
    Inv (es.foldl (copyEntry behind) trie) ∧
      (es.foldl (copyEntry behind) trie).tree.walk.Perm (trie.tree.walk ++ es) := by
  induction es generalizing trie with
  | nil => exact ⟨hinv, by simp⟩
  | cons e es ih =>
    obtain ⟨p, data⟩ := e
    obtain ⟨val, rfl⟩ := Option.isSome_iff_exists.1 (hval _ List.mem_cons_self)
    have habs : ∀ x ∈ trie.tree.walk, x.key ≠ p.bits := by
      intro x hx hk
      rw [List.map_append, List.nodup_append] at hnodup
      exact hnodup.2.2 _ (List.mem_map_of_mem hx) _ (List.mem_map_of_mem List.mem_cons_self) hk
    obtain ⟨hwf, hperm, b, l, r, hsub⟩ := patriciaLookup_spec hinv.wf p (behind p) habs
    obtain ⟨hwf', ctx, h1, h2⟩ := setData_spec hwf hsub val
    have hctx : ctx.Perm trie.tree.walk := (List.perm_cons _).1 (h1.symm.trans hperm)
    have hperm' := h2.trans (hctx.cons _)
    have hmid : (⟨p, some val⟩ :: trie.tree.walk ++ es).Perm
        (trie.tree.walk ++ ⟨p, some val⟩ :: es) := List.perm_middle.symm
    have hstep : (copyEntry behind trie ⟨p, some val⟩).tree.walk.Perm
        (⟨p, some val⟩ :: trie.tree.walk) := hperm'
    obtain ⟨hinv', hperm''⟩ := ih (hinv.push hwf' hperm' : Inv (copyEntry behind trie ⟨p, some val⟩))
      (fun x hx => hval x (List.mem_cons_of_mem _ hx))
      ((((hstep.append_right es).trans hmid).map _).nodup_iff.2 hnodup)
    exact ⟨hinv', hperm''.trans ((hstep.append_right es).trans hmid)⟩

theorem copyFrom_spec {trie : PatriciaTrie T} (hinv : Inv trie) (behind : Behind) :
    Inv (trie.copyFrom behind) ∧ (trie.copyFrom behind).tree.walk.Perm trie.tree.walk :=
  foldl_copyEntry_spec behind inv_empty hinv.valued hinv.wf.nodup_keys

/-- A trie is determined by its entries. -/
theorem Inv.ext {trie trie' : PatriciaTrie T} (h : Inv trie) (h' : Inv trie')
    (hperm : trie'.tree.walk.Perm trie.tree.walk) : trie' = trie := by
  have htree : trie'.tree = trie.tree := eq_of_walk h'.wf h.wf fun _ => hperm.mem_iff
  have hcache : trie'.valCache = trie.valCache := by
    refine Std.ExtTreeMap.ext_getElem? fun val => ?_
    rw [h'.count, h.count, htree]
  cases trie
  cases trie'
  cases htree
  cases hcache
  rfl

/-- A copy is the trie itself. -/
theorem copyFrom_eq {trie : PatriciaTrie T} (hinv : Inv trie) (behind : Behind) :
    trie.copyFrom behind = trie :=
  hinv.ext (copyFrom_spec hinv behind).1 (copyFrom_spec hinv behind).2

/-! ## Enumerating -/

/-- A val is mapped to the last index at which it stands. -/
theorem get_valToIdx (result : List (T × List IPPrefix)) (val : T) (i : Nat) :
    (valToIdx result)[val]? = some i ↔
      (result[i]?.map (·.1) = some val ∧ ∀ j, i < j → result[j]?.map (·.1) ≠ some val) := by
  induction result using List.reverseRecOn with
  | nil => simp [valToIdx]
  | append_singleton xs x ih =>
    have hstep : valToIdx (xs ++ [x]) = (valToIdx xs).insert x.1 xs.length := by
      simp [valToIdx, List.zipIdx_append]
    rw [hstep, StdMap.get_insert]
    have hlast : (xs ++ [x])[xs.length]?.map (·.1) = some x.1 := by simp
    have hbefore : ∀ j < xs.length, (xs ++ [x])[j]?.map (·.1) = xs[j]?.map (·.1) :=
      fun j hj => by rw [List.getElem?_append_left hj]
    have hafter : ∀ j, xs.length < j → (xs ++ [x])[j]?.map (·.1) = none :=
      fun j hj => by rw [List.getElem?_eq_none (by simp; omega)]; rfl
    have hout : ∀ j, xs.length ≤ j → xs[j]?.map (·.1) = none :=
      fun j hj => by rw [List.getElem?_eq_none hj]; rfl
    rcases Nat.lt_trichotomy i xs.length with hi | rfl | hi
    · split
      · next h =>
        refine iff_of_false (by simp; omega) (fun hc => hc.2 _ hi ?_)
        rw [hlast, h]
      · next h =>
        rw [ih, hbefore i hi]
        refine and_congr_right fun _ => forall_congr' fun j => imp_congr_right fun _ => ?_
        rcases Nat.lt_trichotomy j xs.length with hj | rfl | hj
        · rw [hbefore j hj]
        · rw [hlast, hout _ (Nat.le_refl _)]
          simp [h]
        · rw [hafter j hj, hout j (by omega)]
    · rw [hlast]
      split
      · next h =>
        refine iff_of_true rfl ⟨by rw [h], fun j hj => ?_⟩
        rw [hafter j hj]
        exact fun hc => nomatch hc
      · next h =>
        refine iff_of_false (fun hc => ?_) (fun hc => h (by simpa using hc.1))
        have := (ih.1 hc).1
        rw [hout _ (Nat.le_refl _)] at this
        cases this
    · rw [hafter i hi]
      refine iff_of_false (fun hc => ?_) (fun hc => nomatch hc.1)
      split at hc
      · simp at hc
        omega
      · have := (ih.1 hc).1
        rw [hout i (by omega)] at this
        cases this

theorem foldl_putPrefix (idx : StdMap T Nat) (es : List (Entry T))
    (result : List (T × List IPPrefix)) (i : Nat) :
    (es.foldl (putPrefix idx) result)[i]? = result[i]?.map fun x =>
      (x.1, x.2 ++ (es.filter fun e => e.data.bind (idx[·]?) == some i).map (·.pfx)) := by
  induction es generalizing result with
  | nil => simp
  | cons e es ih =>
    rw [List.foldl_cons, ih]
    unfold putPrefix
    cases h : e.data.bind (idx[·]?) with
    | none => simp [h]
    | some j =>
      by_cases hij : j = i
      · subst hij
        simp [h, Function.comp_def]
      · simp [h, hij]

/-- `enumerate` appends to each val, at the last index where it stands, its prefixes. -/
theorem enumerate_get (trie : PatriciaTrie T) (result : List (T × List IPPrefix)) (i : Nat) :
    (trie.enumerate result)[i]? = (trie.enumStart result)[i]?.map fun x =>
      (x.1, x.2 ++ if (valToIdx (trie.enumStart result))[x.1]? = some i
        then trie.getPrefixes x.1 else []) := by
  unfold enumerate
  rw [foldl_putPrefix]
  cases hx : (trie.enumStart result)[i]? with
  | none => rfl
  | some x =>
    simp only [Option.map_some, Option.some.injEq, Prod.mk.injEq, List.append_cancel_left_eq,
      true_and]
    have hval : ∀ v, (valToIdx (trie.enumStart result))[v]? = some i → v = x.1 := by
      intro v hv
      have := ((get_valToIdx _ v i).1 hv).1
      rw [hx] at this
      simpa using this.symm
    split
    · next h =>
      unfold getPrefixes
      congr 1
      refine List.filter_congr fun e _ => ?_
      rw [Bool.eq_iff_iff]
      simp only [beq_iff_eq, Option.bind_eq_some_iff]
      exact ⟨fun ⟨v, hv, hi⟩ => by rw [hv, hval v hi], fun hv => ⟨x.1, hv, h⟩⟩
    · next h =>
      rw [List.map_eq_nil_iff, List.filter_eq_nil_iff]
      intro e _
      simp only [beq_iff_eq, Option.bind_eq_some_iff, not_exists, not_and]
      intro v _ hi
      exact h (hval v hi ▸ hi)

/-- Started on an empty vector, `enumerate` lists every value with its prefixes. -/
theorem enumerate_nil (trie : PatriciaTrie T) :
    trie.enumerate [] = trie.enumerateValues.map fun v => (v, trie.getPrefixes v) := by
  refine List.ext_getElem? fun i => ?_
  rw [enumerate_get]
  have hstart : trie.enumStart [] = trie.enumerateValues.map fun v => (v, []) := rfl
  rw [hstart, List.getElem?_map, List.getElem?_map, Option.map_map]
  cases hv : trie.enumerateValues[i]? with
  | none => rfl
  | some v =>
    have hidx : (valToIdx (trie.enumerateValues.map fun v => (v, ([] : List IPPrefix))))[v]? =
        some i := by
      rw [get_valToIdx]
      refine ⟨by simp [hv], fun j hj hc => ?_⟩
      simp only [List.getElem?_map, Option.map_map, Function.comp_def] at hc
      have hj' : trie.enumerateValues[j]? = some v := by simpa using hc
      have := (List.nodup_iff_getElem?_ne_getElem?.1 Std.ExtTreeMap.nodup_keys) i j hj
        (List.getElem?_eq_some_iff.1 hj').1
      exact this (hv.trans hj'.symm)
    simp [hidx]

end PatriciaTrie

end Alto
