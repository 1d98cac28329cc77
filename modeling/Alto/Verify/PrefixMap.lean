import Mathlib
import Alto.Verify.PatriciaTrie

/-!
# A trie as a map from prefixes

The abstract side of `PatriciaTrie`: a finite map from prefixes to values, what each operation does
to it and what the queries return on it. `represents_run` follows a sequence of operations on the
trie along the map.
-/

namespace Alto

open Lib Lib.Radix Patricia

/-- A map from (family, masked address, length) to values. -/
abbrev PrefixMap (T : Type) := IPPrefix → Option T

namespace PatriciaTrie

variable {T : Type} [LinearOrder T]

/-- The trie holds exactly the entries of the map. -/
structure Represents (trie : PatriciaTrie T) (M : PrefixMap T) : Prop where
  inv : Inv trie
  mem : ∀ p v, M p = some v ↔ ⟨p, some v⟩ ∈ trie.tree.walk

/-- The operations that change a trie. -/
inductive Op (T : Type) where
  | add (pfx : IPPrefix) (val : T)
  | remove (pfx : IPPrefix) (val : T)
  | removeVal (val : T)
  | clear
  | copy

/-- The operation as the code does it; `copy` goes on with the copy. -/
def Op.run (behind : Behind) (trie : PatriciaTrie T) : Op T → Bool × PatriciaTrie T
  | .add p v => trie.add behind p v
  | .remove p v => trie.remove behind p v
  | .removeVal v => trie.removeVal v
  | .clear => (true, trie.clear)
  | .copy => (true, trie.copyFrom behind)

/-- The operation on the map. -/
def Op.onMap (M : PrefixMap T) : Op T → PrefixMap T
  | .add p v => if M p = none then Function.update M p (some v) else M
  | .remove p v => if M p = some v then Function.update M p none else M
  | .removeVal v => fun p => if M p = some v then none else M p
  | .clear => fun _ => none
  | .copy => M

/-- What the operation returns, from the map. -/
def Op.Returns (M : PrefixMap T) : Op T → Bool → Prop
  | .add p v, res => res = true ↔ M p = none ∨ M p = some v
  | .remove p v, res => res = true ↔ M p = some v
  | .removeVal v, res => res = true ↔ ∃ p, M p = some v
  | .clear, _ => True
  | .copy, _ => True

/-- No prefix of the other family is in the way: for `add`, none with the same bits; for `remove`,
none with the same bits and the same value. -/
def Op.Free (M : PrefixMap T) : Op T → Prop
  | .add p _ => ∀ p', p' ≠ p → p'.bits = p.bits → M p' = none
  | .remove p v => ∀ p', p' ≠ p → p'.bits = p.bits → M p' ≠ some v
  | .removeVal _ => True
  | .clear => True
  | .copy => True

/-- The operation does to the trie what it does to the map, and an operation that leaves the map
alone by returning false leaves the trie alone. -/
structure Op.Correct (behind : Behind) (trie : PatriciaTrie T) (M : PrefixMap T) (op : Op T) :
    Prop where
  returns : op.Returns M (op.run behind trie).1
  represents : Represents (op.run behind trie).2 (op.onMap M)
  unchanged : (op.run behind trie).1 = false → (op.run behind trie).2 = trie

/-! ## One operation -/

section

variable {trie : PatriciaTrie T} {M : PrefixMap T}

theorem represents_empty : Represents (empty : PatriciaTrie T) fun _ => none :=
  ⟨inv_empty, fun p v => by simp [empty]⟩

/-- Two stored prefixes with the same bits are the same prefix. -/
theorem Represents.bits_inj (h : Represents trie M) {p p' : IPPrefix} {v v' : T}
    (hp : M p = some v) (hp' : M p' = some v') (hb : p.bits = p'.bits) : p = p' := by
  have := h.inv.wf.key_inj ((h.mem p v).1 hp) ((h.mem p' v').1 hp') hb
  exact congrArg Entry.pfx this

theorem Represents.entry (h : Represents trie M) {e : Entry T} (he : e ∈ trie.tree.walk) :
    ∃ v, e.data = some v ∧ M e.pfx = some v := by
  obtain ⟨v, hv⟩ := Option.isSome_iff_exists.1 (h.inv.valued e he)
  refine ⟨v, hv, (h.mem e.pfx v).2 ?_⟩
  rwa [← hv]

theorem Represents.finite (h : Represents trie M) : {p | M p ≠ none}.Finite := by
  refine (trie.tree.walk.map Entry.pfx).finite_toSet.subset fun p hp => ?_
  obtain ⟨v, hv⟩ := Option.ne_none_iff_exists'.1 hp
  exact List.mem_map.2 ⟨_, (h.mem p v).1 hv, rfl⟩

theorem correct_add (h : Represents trie M) (behind : Behind) (p : IPPrefix) (v : T) :
    (Op.add p v).Correct behind trie M ↔ (Op.add p v).Free M := by
  rcases add_spec h.inv behind p v with ⟨e, he, hk, hadd⟩ | ⟨habs, hres, hinv, hperm⟩
  · obtain ⟨u, hu, hM⟩ := h.entry he
    have hrun : (Op.add p v).run behind trie = (e.data == some v, trie) := hadd
    constructor
    · intro hc p' hne hb
      -- the trie is unchanged, so the prefix must have been there before
      by_contra hp'
      obtain ⟨w, hw⟩ := Option.ne_none_iff_exists'.1 hp'
      have hrep := hc.represents
      rw [hrun] at hrep
      have hnone : M p = none := by
        cases hp : M p with
        | none => rfl
        | some x => exact absurd (h.bits_inj hw hp hb) hne
      have hnew : ((Op.add p v).onMap M) p = some v := by simp [Op.onMap, hnone]
      rw [(h.mem p v).2 ((hrep.mem p v).1 hnew)] at hnone
      cases hnone
    · intro hfree
      have hpe : e.pfx = p := by
        by_contra hne
        rw [hfree e.pfx hne hk] at hM
        cases hM
      rw [hpe] at hM
      refine ⟨?_, ?_, fun _ => by rw [hrun]⟩
      · rw [hrun]
        simp [Op.Returns, hM, hu]
      · rw [hrun]
        simpa [Op.onMap, hM] using h
  · have hnone : ∀ p', p'.bits = p.bits → M p' = none := by
      intro p' hb
      cases hp : M p' with
      | none => rfl
      | some w => exact absurd hb (habs _ ((h.mem p' w).1 hp))
    refine iff_of_true ⟨?_, ⟨hinv, fun q w => ?_⟩, fun hf => ?_⟩ (fun p' _ hb => hnone p' hb)
    · have : ((Op.add p v).run behind trie).1 = true := hres
      simp [Op.Returns, this, hnone p rfl]
    · have hmem : (⟨q, some w⟩ : Entry T) ∈ ((Op.add p v).run behind trie).2.tree.walk ↔ _ :=
        hperm.mem_iff
      rw [hmem, List.mem_cons, ← h.mem q w]
      simp only [Op.onMap, hnone p rfl, ↓reduceIte, Function.update_apply]
      by_cases hq : q = p
      · subst hq
        simp [hnone q rfl, eq_comm]
      · simp [hq]
    · have : ((Op.add p v).run behind trie).1 = true := hres
      rw [this] at hf
      cases hf

theorem correct_remove (h : Represents trie M) (behind : Behind) (p : IPPrefix) (v : T) :
    (Op.remove p v).Correct behind trie M ↔ (Op.remove p v).Free M := by
  rcases remove_spec h.inv behind p v with ⟨e, he, hk, hd, hres, hinv, hperm⟩ | ⟨habs, hrem⟩
  · obtain ⟨u, hu, hM⟩ := h.entry he
    obtain rfl : u = v := by
      rw [hu] at hd
      exact Option.some.inj hd
    constructor
    · intro hc p' hne hb hp'
      have hp : M p = some u := hc.returns.1 hres
      exact hne (h.bits_inj hp' hp hb)
    · intro hfree
      obtain rfl : e.pfx = p := by
        by_contra hne
        exact hfree e.pfx hne hk hM
      refine ⟨iff_of_true hres hM, ⟨hinv, fun q w => ?_⟩, fun hf => ?_⟩
      · have hmem : (⟨q, some w⟩ : Entry T) ∈ trie.tree.walk ↔ _ := hperm.mem_iff
        have hnot : ∀ x ∈ (trie.remove behind e.pfx u).2.tree.walk, x ≠ e := by
          have hnd := h.inv.wf.nodup_keys.of_map
          rw [hperm.nodup_iff, List.nodup_cons] at hnd
          exact fun x hx hxe => hnd.1 (hxe ▸ hx)
        simp only [Op.onMap, hM, ↓reduceIte, Function.update_apply]
        by_cases hq : q = e.pfx
        · subst hq
          refine iff_of_false (by simp) (fun hx => ?_)
          have hw := (h.mem _ _).2 (hmem.2 (List.mem_cons_of_mem _ hx))
          rw [hM] at hw
          cases hw
          refine hnot _ hx ?_
          rw [← hu]
        · rw [if_neg hq, h.mem, hmem, List.mem_cons]
          refine or_iff_right fun hqe => hq ?_
          rw [← hqe]
      · have : ((Op.remove e.pfx u).run behind trie).1 = true := hres
        rw [this] at hf
        cases hf
  · have hno : ∀ p', p'.bits = p.bits → M p' ≠ some v :=
      fun p' hb hp' => habs _ ((h.mem p' v).1 hp') hb rfl
    have hrun : (Op.remove p v).run behind trie = (false, trie) := hrem
    refine iff_of_true ⟨?_, ?_, fun _ => by rw [hrun]⟩ (fun p' _ hb => hno p' hb)
    · rw [hrun]
      simp [Op.Returns, hno p rfl]
    · rw [hrun]
      simpa [Op.onMap, hno p rfl] using h

theorem correct_removeVal (h : Represents trie M) (behind : Behind) (v : T) :
    (Op.removeVal v).Correct behind trie M := by
  obtain ⟨hres, hinv, hperm⟩ := removeVal_spec h.inv v
  refine ⟨hres.trans ⟨?_, ?_⟩, ⟨hinv, fun p w => ?_⟩, fun hf => ?_⟩
  · rintro ⟨e, he, hd⟩
    exact ⟨e.pfx, (h.mem _ _).2 (hd ▸ he)⟩
  · rintro ⟨p, hp⟩
    exact ⟨_, (h.mem p v).1 hp, rfl⟩
  · have hmem : (⟨p, some w⟩ : Entry T) ∈ ((Op.removeVal v).run behind trie).2.tree.walk ↔ _ :=
      hperm.mem_iff
    rw [hmem, List.mem_filter, ← h.mem p w]
    simp only [Op.onMap]
    by_cases hp : M p = some v
    · rw [if_pos hp]
      refine iff_of_false (fun hc => nomatch hc) (fun hw => ?_)
      have : w = v := Option.some.inj (hw.1.symm.trans hp)
      simp [this] at hw
    · rw [if_neg hp]
      refine ⟨fun hw => ⟨hw, ?_⟩, fun hw => hw.1⟩
      have : w ≠ v := fun hwv => hp (hwv ▸ hw)
      simpa using this
  · simp only [Op.run, removeVal] at hf ⊢
    split at hf
    · cases hf
    · rw [if_neg ‹_›]

theorem correct_copy (h : Represents trie M) (behind : Behind) :
    (Op.copy : Op T).Correct behind trie M := by
  obtain ⟨hinv, hperm⟩ := copyFrom_spec h.inv behind
  exact ⟨trivial, ⟨hinv, fun p v => (h.mem p v).trans hperm.mem_iff.symm⟩, fun hf => nomatch hf⟩

theorem correct_clear (behind : Behind) : (Op.clear : Op T).Correct behind trie M :=
  ⟨trivial, represents_empty, fun hf => nomatch hf⟩

/-- An operation follows the map exactly if no prefix of the other family is in the way. -/
theorem correct_iff_free (h : Represents trie M) (behind : Behind) (op : Op T) :
    op.Correct behind trie M ↔ op.Free M := by
  cases op with
  | add p v => exact correct_add h behind p v
  | remove p v => exact correct_remove h behind p v
  | removeVal v => exact iff_of_true (correct_removeVal h behind v) trivial
  | clear => exact iff_of_true (correct_clear behind) trivial
  | copy => exact iff_of_true (correct_copy h behind) trivial

end

/-! ## Lists of prefixes -/

section

variable {trie : PatriciaTrie T} {M : PrefixMap T}

/-- A prefix with these bits, of whichever family, is in the map. -/
def Taken (M : PrefixMap T) (p : IPPrefix) : Prop := ∃ p', p'.bits = p.bits ∧ M p' ≠ none

theorem Represents.mem_taken (h : Represents trie M) {e : Entry T} (he : e ∈ trie.tree.walk)
    {p : IPPrefix} (hk : e.key = p.bits) : Taken M p := by
  obtain ⟨v, -, hv⟩ := h.entry he
  exact ⟨e.pfx, hk, by simp [hv]⟩

/-- `add` on any map: nothing happens to bits that are taken. -/
theorem represents_add (h : Represents trie M) (behind : Behind) (p : IPPrefix) (v : T) :
    (Taken M p ∧ (trie.add behind p v).2 = trie) ∨
      (¬ Taken M p ∧ (trie.add behind p v).1 = true ∧
        Represents (trie.add behind p v).2 (Function.update M p (some v))) := by
  rcases add_spec h.inv behind p v with ⟨e, he, hk, hadd⟩ | ⟨habs, hres, -, -⟩
  · exact .inl ⟨h.mem_taken he hk, by rw [hadd]⟩
  · have hfree : ¬ Taken M p := by
      rintro ⟨p', hb, hp'⟩
      obtain ⟨w, hw⟩ := Option.ne_none_iff_exists'.1 hp'
      exact habs _ ((h.mem p' w).1 hw) hb
    have hnone : M p = none := not_not.1 fun hp => hfree ⟨p, rfl, hp⟩
    have hcorrect := (correct_add h behind p v).2 fun p' _ hb =>
      not_not.1 fun hp => hfree ⟨p', hb, hp⟩
    refine .inr ⟨hfree, hres, ?_⟩
    have hrep := hcorrect.represents
    rwa [Op.onMap, if_pos hnone] at hrep

/-- `remove` on any map: the prefix with these bits and this value goes. -/
theorem represents_remove (h : Represents trie M) (behind : Behind) (p : IPPrefix) (v : T) :
    Represents (trie.remove behind p v).2
        (fun q => if q.bits = p.bits ∧ M q = some v then none else M q) ∧
      ((trie.remove behind p v).1 = false → (trie.remove behind p v).2 = trie) := by
  by_cases hfound : ∃ q, q.bits = p.bits ∧ M q = some v
  · obtain ⟨q, hb, hq⟩ := hfound
    have hmem := (h.mem q v).1 hq
    rcases remove_spec h.inv behind p v with ⟨e, he, hk, hd, hres, hinv, hperm⟩ | ⟨habs, -⟩
    · obtain rfl : e = ⟨q, some v⟩ := h.inv.wf.key_inj he hmem (hk.trans hb.symm)
      have hnodup := h.inv.wf.nodup_keys.of_map
      rw [hperm.nodup_iff, List.nodup_cons] at hnodup
      refine ⟨⟨hinv, fun r w => ?_⟩, fun hf => absurd (hres.symm.trans hf) (by simp)⟩
      by_cases hr : r = q
      · subst hr
        rw [if_pos ⟨hb, hq⟩]
        refine iff_of_false (by simp) fun hw => ?_
        have hw' := (h.mem r w).2 (hperm.mem_iff.2 (List.mem_cons_of_mem _ hw))
        obtain rfl := Option.some.inj (hq.symm.trans hw')
        exact hnodup.1 hw
      · have hno : ¬ (r.bits = p.bits ∧ M r = some v) := fun hr' =>
          hr (h.bits_inj hr'.2 hq (hr'.1.trans hb.symm))
        rw [if_neg hno, h.mem, hperm.mem_iff, List.mem_cons]
        exact or_iff_right fun heq => hr (congrArg Entry.pfx heq)
    · exact absurd rfl (habs _ hmem hb)
  · have hsame : (fun q => if q.bits = p.bits ∧ M q = some v then none else M q) = M :=
      funext fun q => if_neg fun hq => hfound ⟨q, hq⟩
    have hcorrect := (correct_remove h behind p v).2 fun p' _ hb hp' => hfound ⟨p', hb, hp'⟩
    rw [hsame]
    have hno : M p ≠ some v := fun hp => hfound ⟨p, rfl, hp⟩
    have hrep := hcorrect.represents
    rw [Op.onMap, if_neg hno] at hrep
    exact ⟨hrep, hcorrect.unchanged⟩

/-- The map after a list of prefixes was added under a value. -/
structure AfterAdds (M M' : PrefixMap T) (v : T) (l : List IPPrefix) : Prop where
  kept : ∀ p, M p ≠ none → M' p = M p
  other : ∀ p, p ∉ l → M' p = M p
  new : ∀ p, M p = none → M' p = none ∨ M' p = some v
  taken : ∀ p ∈ l, Taken M' p

theorem represents_adds (h : Represents trie M) (behind : Behind) (v : T) (l : List IPPrefix) :
    ∃ M', Represents (l.foldl (fun m p => (m.add behind p v).2) trie) M' ∧ AfterAdds M M' v l := by
  induction l generalizing trie M with
  | nil => exact ⟨M, h, fun _ _ => rfl, fun _ _ => rfl, fun _ hp => .inl hp, by simp⟩
  | cons x l ih =>
    rw [List.foldl_cons]
    have hmono : ∀ {M₁ M₂ : PrefixMap T} {l : List IPPrefix}, AfterAdds M₁ M₂ v l → Taken M₁ x →
        Taken M₂ x := fun h₁ ⟨p, hb, hp⟩ => ⟨p, hb, by rw [h₁.kept p hp]; exact hp⟩
    rcases represents_add h behind x v with ⟨htaken, hsame⟩ | ⟨hfree, -, hrep⟩
    · rw [hsame]
      obtain ⟨M', hrep, hM⟩ := ih h
      exact ⟨M', hrep, hM.kept, fun p hp => hM.other p fun hl => hp (List.mem_cons_of_mem _ hl),
        hM.new, List.forall_mem_cons.2 ⟨hmono hM htaken, hM.taken⟩⟩
    · obtain ⟨M', hrep', hM⟩ := ih hrep
      have hx : M x = none := not_not.1 fun hx => hfree ⟨x, rfl, hx⟩
      refine ⟨M', hrep', fun p hp => ?_, fun p hp => ?_, fun p hp => ?_,
        List.forall_mem_cons.2 ⟨hmono hM ⟨x, rfl, by simp⟩, hM.taken⟩⟩
      · have hne : p ≠ x := fun heq => hp (heq ▸ hx)
        have hupdate := hM.kept p (by rwa [Function.update_of_ne hne])
        rwa [Function.update_of_ne hne] at hupdate
      · obtain ⟨hne, hl⟩ := not_or.1 fun h' => hp (List.mem_cons.2 h')
        rw [hM.other p hl, Function.update_of_ne hne]
      · by_cases hpx : p = x
        · subst hpx
          have hupdate := hM.kept p (by simp)
          exact .inr (by rw [hupdate, Function.update_self])
        · exact hM.new p (by rwa [Function.update_of_ne hpx])

theorem represents_removes (h : Represents trie M) (behind : Behind) (v : T) (l : List IPPrefix) :
    Represents (l.foldl (fun m p => (m.remove behind p v).2) trie)
      fun q => if (∃ p ∈ l, q.bits = p.bits) ∧ M q = some v then none else M q := by
  induction l generalizing trie M with
  | nil => simpa using h
  | cons x l ih =>
    rw [List.foldl_cons]
    have hrep := ih (represents_remove h behind x v).1
    convert hrep using 1
    funext q
    by_cases hx : q.bits = x.bits ∧ M q = some v
    · rw [if_pos ⟨⟨x, List.mem_cons_self, hx.1⟩, hx.2⟩, if_pos hx]
      simp
    · rw [if_neg hx]
      have hiff : ((∃ p ∈ x :: l, q.bits = p.bits) ∧ M q = some v) ↔
          (∃ p ∈ l, q.bits = p.bits) ∧ M q = some v := by
        constructor
        · rintro ⟨⟨p, hp, hb⟩, hv⟩
          rcases List.mem_cons.1 hp with rfl | hp
          · exact absurd ⟨hb, hv⟩ hx
          · exact ⟨⟨p, hp, hb⟩, hv⟩
        · rintro ⟨⟨p, hp, hb⟩, hv⟩
          exact ⟨⟨p, List.mem_cons_of_mem _ hp, hb⟩, hv⟩
      simp only [hiff]

end

/-! ## Runs -/

/-- A sequence of operations, each with what lies behind the prefixes it allocates. -/
def run (ops : List (Behind × Op T)) (trie : PatriciaTrie T) : PatriciaTrie T :=
  ops.foldl (fun trie x => (x.2.run x.1 trie).2) trie

/-- Every operation keeps the invariant, whatever prefixes it meets. -/
theorem inv_opRun {trie : PatriciaTrie T} (hinv : Inv trie) (behind : Behind) (op : Op T) :
    Inv (op.run behind trie).2 := by
  cases op with
  | add p v =>
    rcases add_spec hinv behind p v with ⟨e, -, -, h⟩ | ⟨-, -, h, -⟩
    · rw [Op.run, h]
      exact hinv
    · exact h
  | remove p v =>
    rcases remove_spec hinv behind p v with ⟨e, -, -, -, -, h, -⟩ | ⟨-, h⟩
    · exact h
    · rw [Op.run, h]
      exact hinv
  | removeVal v => exact (removeVal_spec hinv v).2.1
  | clear => exact inv_empty
  | copy => exact (copyFrom_spec hinv behind).1

theorem inv_run {trie : PatriciaTrie T} (hinv : Inv trie) (ops : List (Behind × Op T)) :
    Inv (run ops trie) := by
  induction ops generalizing trie with
  | nil => exact hinv
  | cons x ops ih => exact ih (inv_opRun hinv x.1 x.2)

/-- The sequence on the map. -/
def runMap (ops : List (Behind × Op T)) (M : PrefixMap T) : PrefixMap T :=
  ops.foldl (fun M x => x.2.onMap M) M

/-- Every operation of the sequence is free of the other family. -/
def RunFree : PrefixMap T → List (Behind × Op T) → Prop
  | _, [] => True
  | M, (_, op) :: ops => op.Free M ∧ RunFree (op.onMap M) ops

theorem represents_run {ops : List (Behind × Op T)} {trie : PatriciaTrie T} {M : PrefixMap T}
    (h : Represents trie M) (hfree : RunFree M ops) :
    Represents (run ops trie) (runMap ops M) := by
  induction ops generalizing trie M with
  | nil => exact h
  | cons x ops ih => exact ih ((correct_iff_free h x.1 x.2).2 hfree.1).represents hfree.2

/-- The prefix that an operation adds or removes. -/
def Op.pfx? : Op T → Option IPPrefix
  | .add p _ => some p
  | .remove p _ => some p
  | _ => none

theorem Op.onMap_ne_none {op : Op T} {M : PrefixMap T} {p : IPPrefix} (h : op.onMap M p ≠ none) :
    M p ≠ none ∨ op.pfx? = some p := by
  cases op with
  | add q v =>
    simp only [onMap] at h
    split at h
    · by_cases hp : p = q
      · exact .inr (by rw [hp]; rfl)
      · exact .inl (by rwa [Function.update_of_ne hp] at h)
    · exact .inl h
  | remove q v =>
    simp only [onMap] at h
    split at h
    · by_cases hp : p = q
      · exact .inr (by rw [hp]; rfl)
      · exact .inl (by rwa [Function.update_of_ne hp] at h)
    · exact .inl h
  | removeVal v =>
    simp only [onMap] at h
    exact .inl fun hp => h (by simp [hp])
  | clear => exact absurd rfl h
  | copy => exact .inl h

/-- The prefixes of the map are among those that the operations name. -/
theorem mem_of_runMap {S : List IPPrefix} {ops : List (Behind × Op T)} {M : PrefixMap T}
    (hops : ∀ x ∈ ops, ∀ p, x.2.pfx? = some p → p ∈ S) (hM : ∀ p, M p ≠ none → p ∈ S)
    {p : IPPrefix} (hp : runMap ops M p ≠ none) : p ∈ S := by
  induction ops generalizing M with
  | nil => exact hM p hp
  | cons x ops ih =>
    refine ih (fun y hy => hops y (List.mem_cons_of_mem _ hy)) (fun q hq => ?_) hp
    rcases Op.onMap_ne_none hq with hq | hq
    · exact hM q hq
    · exact hops x List.mem_cons_self q hq

/-- Operations that name no two prefixes with the same bits keep the families apart. -/
theorem runFree_of_bits {S : List IPPrefix} {ops : List (Behind × Op T)} {M : PrefixMap T}
    (hbits : ∀ p ∈ S, ∀ p' ∈ S, p'.bits = p.bits → p' = p)
    (hops : ∀ x ∈ ops, ∀ p, x.2.pfx? = some p → p ∈ S) (hM : ∀ p, M p ≠ none → p ∈ S) :
    RunFree M ops := by
  induction ops generalizing M with
  | nil => trivial
  | cons x ops ih =>
    obtain ⟨behind, op⟩ := x
    have hop := hops _ List.mem_cons_self
    have hfree : op.Free M := by
      cases op with
      | add p v =>
        exact fun p' hne hb => not_not.1 fun hp => hne (hbits p (hop p rfl) p' (hM p' hp) hb)
      | remove p v =>
        exact fun p' hne hb hp => hne (hbits p (hop p rfl) p' (hM p' (by simp [hp])) hb)
      | removeVal v => trivial
      | clear => trivial
      | copy => trivial
    refine ⟨hfree, ih (fun y hy => hops y (List.mem_cons_of_mem _ hy)) fun q hq => ?_⟩
    rcases Op.onMap_ne_none hq with hq | hq
    · exact hM q hq
    · exact hop q hq

/-! ## Lookup -/

/-- `p` with value `v` is the longest prefix of the query's family in the map that contains it. -/
structure IsLongestMatch (M : PrefixMap T) (q p : IPPrefix) (v : T) : Prop where
  mem : M p = some v
  contains : p.Contains q
  longest : ∀ p' v', M p' = some v' → p'.Contains q → p'.length ≤ p.length

/-- `lookup` returns the longest match, and null exactly if there is none. -/
def LookupCorrect (behind : Behind) (trie : PatriciaTrie T) (M : PrefixMap T) (q : IPPrefix) :
    Prop :=
  (∀ p v, trie.lookup behind q = some (p, v) ↔ IsLongestMatch M q p v) ∧
    (trie.lookup behind q = none ↔ ∀ p v, M p = some v → ¬ p.Contains q)

/-- A stored prefix longer than the query that agrees with the zero bits behind the query's length
and lies above every stored prefix within the query. -/
structure Beyond (M : PrefixMap T) (behind : Nat → Bool) (q p : IPPrefix) : Prop where
  mem : M p ≠ none
  longer : q.length < p.length
  agrees : ∀ i < p.length, p.bits.getD i false = bitTest q behind i
  top : ∀ p', M p' ≠ none → q.bits <+: p'.bits → p.bits <+: p'.bits

/-- Nothing hides the longest match of a query: no prefix beyond it, and no prefix of the other
family that shares its bits, unless a longer one of its own family does too. -/
structure Clear (M : PrefixMap T) (behind : Nat → Bool) (q : IPPrefix) : Prop where
  beyond : ∀ p, ¬ Beyond M behind q p
  family : ∀ p, M p ≠ none → p.family ≠ q.family → p.bits <+: q.bits →
    ∃ p', M p' ≠ none ∧ p'.Contains q ∧ p.length < p'.length

section

variable {trie : PatriciaTrie T} {M : PrefixMap T}

theorem Represents.overshoots_iff (h : Represents trie M) {q : IPPrefix} {behind : Nat → Bool}
    {e : Entry T} (he : e ∈ trie.tree.walk) :
    Overshoots q behind trie.tree.walk e ↔ Beyond M behind q e.pfx := by
  obtain ⟨v, -, hv⟩ := h.entry he
  constructor
  · intro ho
    refine ⟨by simp [hv], ho.longer, compWithMask_iff.1 ho.agrees, fun p' hp' hq => ?_⟩
    obtain ⟨v', hv'⟩ := Option.ne_none_iff_exists'.1 hp'
    exact ho.top _ ((h.mem p' v').1 hv') hq
  · intro hb
    refine ⟨he, hb.longer, compWithMask_iff.2 hb.agrees, fun e' he' hq => ?_⟩
    obtain ⟨v', -, hv'⟩ := h.entry he'
    exact hb.top e'.pfx (by simp [hv']) hq

/-- A lookup is right exactly on the queries that nothing hides. -/
theorem lookupCorrect_iff_clear (h : Represents trie M) (behind : Behind) (q : IPPrefix) :
    LookupCorrect behind trie M q ↔ Clear M (behind q) q := by
  have hmem : ∀ p, M p ≠ none → ∃ v, (⟨p, some v⟩ : Entry T) ∈ trie.tree.walk ∧ M p = some v := by
    intro p hp
    obtain ⟨v, hv⟩ := Option.ne_none_iff_exists'.1 hp
    exact ⟨v, (h.mem p v).1 hv, hv⟩
  have hover : ∀ p, Beyond M (behind q) q p → ∃ e ∈ trie.tree.walk, e.pfx = p ∧
      Overshoots q (behind q) trie.tree.walk e := by
    intro p hp
    obtain ⟨v, he, -⟩ := hmem p hp.mem
    exact ⟨_, he, rfl, (h.overshoots_iff he).2 hp⟩
  have hbest := patriciaSearchBest_spec h.inv.wf q (behind q)
  generalize hres : patriciaSearchBest trie.tree q (behind q) = res at hbest
  cases hbest with
  | @overshot e ho =>
    -- the entry returned is longer than the query
    have hb := (h.overshoots_iff ho.mem).1 ho
    refine iff_of_false (fun hc => ?_) (fun hc => hc.beyond _ hb)
    obtain ⟨v, hd, hv⟩ := h.entry ho.mem
    have hl : trie.lookup behind q = some (e.pfx, v) := by simp [lookup, hres, hd]
    have := ((hc.1 _ _).1 hl).contains.2.length_le
    exact Nat.lt_irrefl _ (Nat.lt_of_lt_of_le hb.longer this)
  | absent hk hno =>
    have hnone : ∀ p, M p ≠ none → ¬ p.bits <+: q.bits := by
      intro p hp
      obtain ⟨v, he, -⟩ := hmem p hp
      exact hk _ he
    have hl : trie.lookup behind q = none := by simp [lookup, hres]
    refine iff_of_true ⟨fun p v => ?_, ?_⟩ ⟨fun p hp => ?_, fun p hp _ hb => absurd hb (hnone p hp)⟩
    · rw [hl]
      exact iff_of_false (fun hc => nomatch hc)
        (fun hc => hnone p (by simp [hc.mem]) hc.contains.2)
    · exact iff_of_true hl fun p v hp hc => hnone p (by simp [hp]) hc.2
    · obtain ⟨e, -, -, ho⟩ := hover p hp
      exact hno e ho
  | @longest e he hk hmax hno =>
    obtain ⟨v, hd, hv⟩ := h.entry he
    have hl : trie.lookup behind q = some (e.pfx, v) := by simp [lookup, hres, hd]
    have hmax' : ∀ p, M p ≠ none → p.bits <+: q.bits → p.length ≤ e.pfx.length := by
      intro p hp hb
      obtain ⟨w, hw, -⟩ := hmem p hp
      exact hmax _ hw hb
    have hno' : ∀ p, ¬ Beyond M (behind q) q p := by
      intro p hp
      obtain ⟨x, -, -, ho⟩ := hover p hp
      exact hno x ho
    constructor
    · intro hc
      have hfam := ((hc.1 _ _).1 hl).contains
      refine ⟨hno', fun p hp hne hb => ⟨e.pfx, by simp [hv], hfam, ?_⟩⟩
      refine Nat.lt_of_le_of_ne (hmax' p hp hb) fun hlen => hne ?_
      obtain ⟨w, hw, hpw⟩ := hmem p hp
      have hbits : p.bits = e.pfx.bits :=
        (List.prefix_of_prefix_length_le hb hk (Nat.le_of_eq hlen)).eq_of_length hlen
      rw [h.bits_inj hpw hv hbits]
      exact hfam.1
    · intro hc
      have hfam : e.pfx.family = q.family := by
        by_contra hne
        obtain ⟨p', hp', hcon, hlt⟩ := hc.family e.pfx (by simp [hv]) hne hk
        exact Nat.lt_irrefl _ (Nat.lt_of_lt_of_le hlt (hmax' p' hp' hcon.2))
      have hlong : IsLongestMatch M q e.pfx v :=
        ⟨hv, ⟨hfam, hk⟩, fun p' v' hp' hcon => hmax' p' (by simp [hp']) hcon.2⟩
      refine ⟨fun p w => ?_, iff_of_false (by simp [hl]) (fun hc => hc _ _ hv ⟨hfam, hk⟩)⟩
      rw [hl, Option.some.injEq, Prod.mk.injEq]
      constructor
      · rintro ⟨rfl, rfl⟩
        exact hlong
      · intro hp
        have hlen : p.length = e.pfx.length :=
          Nat.le_antisymm (hlong.longest _ _ hp.mem hp.contains)
            (hp.longest _ _ hv hlong.contains)
        have hpe : e.pfx = p := by
          refine IPPrefix.ext' (hfam.trans hp.contains.1.symm) ?_
          exact (List.prefix_of_prefix_length_le hk hp.contains.2
            (Nat.le_of_eq hlen.symm)).eq_of_length hlen.symm
        subst hpe
        exact ⟨rfl, Option.some.inj (hv.symm.trans hp.mem)⟩

/-! ## The other queries -/

theorem mem_getPrefixes (h : Represents trie M) (v : T) (p : IPPrefix) :
    p ∈ trie.getPrefixes v ↔ M p = some v := by
  rw [h.mem]
  simp only [getPrefixes, List.mem_map, List.mem_filter, beq_iff_eq]
  constructor
  · rintro ⟨⟨p', d⟩, ⟨he, hd⟩, rfl⟩
    simp only at hd
    rwa [← hd]
  · intro he
    exact ⟨_, ⟨he, rfl⟩, rfl⟩

theorem nodup_getPrefixes (h : Inv trie) (v : T) : (trie.getPrefixes v).Nodup := by
  refine List.Nodup.map_on (fun e he e' he' hpe => ?_) (h.wf.nodup_keys.of_map.filter _)
  refine h.wf.key_inj (List.mem_of_mem_filter he) (List.mem_of_mem_filter he') ?_
  exact congrArg IPPrefix.bits hpe

theorem hasPrefixes_iff (h : Represents trie M) (v : T) :
    trie.hasPrefixes v = true ↔ ∃ p, M p = some v := by
  have hget : v ∈ trie.valCache ↔ ¬ ∀ e ∈ trie.tree.walk, e.data ≠ some v := by
    rw [← h.inv.get_eq_none, StdMap.mem_iff_get, ← Option.ne_none_iff_exists']
  rw [hasPrefixes, Std.ExtTreeMap.contains_iff_mem, hget]
  simp only [ne_eq, not_forall, Decidable.not_not]
  constructor
  · rintro ⟨e, he, hd⟩
    exact ⟨e.pfx, (h.mem _ _).2 (hd ▸ he)⟩
  · rintro ⟨p, hp⟩
    exact ⟨_, (h.mem p v).1 hp, rfl⟩

theorem mem_enumerateValues (h : Represents trie M) (v : T) :
    v ∈ trie.enumerateValues ↔ ∃ p, M p = some v := by
  rw [← hasPrefixes_iff h, hasPrefixes, enumerateValues, Std.ExtTreeMap.mem_keys,
    Std.ExtTreeMap.contains_iff_mem]

/-- A vector passed to `enumerate` that is not empty keeps its vals, and the prefixes of a val are
appended at the last index where the val stands. -/
theorem enumerate_of_ne_nil {result : List (T × List IPPrefix)} (hne : result ≠ []) {i : Nat}
    {x : T × List IPPrefix} (hx : result[i]? = some x) :
    ((∀ j, i < j → result[j]?.map (·.1) ≠ some x.1) →
      (trie.enumerate result)[i]? = some (x.1, x.2 ++ trie.getPrefixes x.1)) ∧
    ((∃ j, i < j ∧ result[j]?.map (·.1) = some x.1) → (trie.enumerate result)[i]? = some x) := by
  have hstart : trie.enumStart result = result := by simp [enumStart, hne]
  have hidx := get_valToIdx result x.1 i
  rw [enumerate_get, hstart, hx]
  refine ⟨fun hlast => ?_, fun ⟨j, hj, hval⟩ => ?_⟩
  · simp [hidx.2 ⟨by rw [hx]; rfl, hlast⟩]
  · have : (valToIdx result)[x.1]? ≠ some i := fun hc => (hidx.1 hc).2 j hj hval
    simp [this]

end

/-! ## The trie follows the map -/

/-- Along every sequence of operations that keeps the families apart, the trie is the map: each
further operation follows the map exactly if it is free of the other family, each lookup is the
longest match exactly if nothing hides it, and the other queries agree with the map. -/
theorem trie_is_longest_prefix_map (ops : List (Behind × Op T))
    (hfree : RunFree (fun _ => none) ops) :
    let trie := run ops empty
    let M := runMap ops fun _ => none
    Represents trie M ∧ {p | M p ≠ none}.Finite ∧
      (∀ (behind : Behind) (op : Op T), op.Correct behind trie M ↔ op.Free M) ∧
      (∀ behind q, LookupCorrect behind trie M q ↔ Clear M (behind q) q) ∧
      (∀ v, trie.hasPrefixes v = true ↔ ∃ p, M p = some v) ∧
      (∀ v, (trie.getPrefixes v).Nodup ∧ ∀ p, p ∈ trie.getPrefixes v ↔ M p = some v) ∧
      (trie.enumerateValues.Nodup ∧ ∀ v, v ∈ trie.enumerateValues ↔ ∃ p, M p = some v) ∧
      trie.enumerate [] = trie.enumerateValues.map (fun v => (v, trie.getPrefixes v)) ∧
      ∀ (result : List (T × List IPPrefix)) (i : Nat) (x : T × List IPPrefix), result ≠ [] →
        result[i]? = some x →
        ((∀ j, i < j → result[j]?.map (·.1) ≠ some x.1) →
          (trie.enumerate result)[i]? = some (x.1, x.2 ++ trie.getPrefixes x.1)) ∧
        ((∃ j, i < j ∧ result[j]?.map (·.1) = some x.1) → (trie.enumerate result)[i]? = some x) := by
  intro trie M
  have h : Represents trie M := represents_run represents_empty hfree
  exact ⟨h, h.finite, correct_iff_free h, lookupCorrect_iff_clear h, hasPrefixes_iff h,
    fun v => ⟨nodup_getPrefixes h.inv v, mem_getPrefixes h v⟩,
    ⟨Std.ExtTreeMap.nodup_keys, mem_enumerateValues h⟩, enumerate_nil trie,
    fun _ _ _ hne hx => enumerate_of_ne_nil hne hx⟩

/-- `10.0.0.0/8`, `10.0.0.0/16` and `10.1.0.0/16`. -/
def ten8 : IPPrefix := .ofRaw .inet [false, false, false, false, true, false, true, false] 8

@[inherit_doc ten8] def ten16 : IPPrefix :=
  .ofRaw .inet [false, false, false, false, true, false, true, false] 16

@[inherit_doc ten8] def tenOne16 : IPPrefix :=
  .ofRaw .inet [false, false, false, false, true, false, true, false,
    false, false, false, false, false, false, false, true] 16

/-- Prefixes of both families, one inside the other: `::/4` has the first four bits of `10.1.0.0`. -/
def nestedOps : List (Behind × Op Nat) :=
  [(fun _ _ => true, .add ten16 1), (fun _ _ => false, .add ten8 2),
    (fun _ _ => true, .add (.ofRaw .inet6 [] 4) 3), (fun _ _ => false, .add tenOne16 4),
    (fun _ _ => true, .remove ten16 1)]

/-- The address `10.1.0.0` is found in the longest of the prefixes, whatever stands behind it, and the
removed prefix was the last one of its value. -/
theorem trie_is_longest_prefix_map_nested :
    RunFree (fun _ => none) nestedOps ∧
      (∀ behind, (run nestedOps empty).lookup behind (.ofRaw .inet tenOne16.bits 32) =
        some (tenOne16, 4)) ∧
      (run nestedOps empty).hasPrefixes 1 = false := by
  let S : List IPPrefix := [ten16, ten8, .ofRaw .inet6 [] 4, tenOne16]
  have hops : ∀ x ∈ nestedOps, ∀ p, x.2.pfx? = some p → p ∈ S := by
    simp only [nestedOps, List.forall_mem_cons, Op.pfx?, Option.some.injEq, forall_eq', S]
    exact ⟨by decide, by decide, by decide, by decide, by decide, fun _ h => nomatch h⟩
  have hkeys : ∀ p, runMap nestedOps (fun _ => none) p ≠ none → p ∈ S :=
    fun p hp => mem_of_runMap hops (fun _ h => absurd rfl h) hp
  have hfree : RunFree (fun _ => none) nestedOps :=
    runFree_of_bits (S := S) (by decide) hops fun _ h => absurd rfl h
  obtain ⟨-, -, -, hlookup, hhas, -⟩ := trie_is_longest_prefix_map nestedOps hfree
  refine ⟨hfree, fun behind => ?_, ?_⟩
  · have hclear : Clear (runMap nestedOps fun _ => none) (behind (.ofRaw .inet tenOne16.bits 32))
        (.ofRaw .inet tenOne16.bits 32) := by
      refine ⟨fun p hp => ?_, fun p hp hfamily _ => ⟨tenOne16, by decide, by decide, ?_⟩⟩
      · have hshort : ∀ p ∈ S, ¬ 32 < p.length := by decide
        exact hshort p (hkeys p hp.mem) hp.longer
      · have hother : ∀ p ∈ S, p.family ≠ .inet → p.length < tenOne16.length := by decide
        exact hother p (hkeys p hp) hfamily
    refine (((hlookup behind _).2 hclear).1 _ _).2 ⟨by decide, by decide, fun p v hp _ => ?_⟩
    have hshort : ∀ p ∈ S, p.length ≤ tenOne16.length := by decide
    exact hshort p (hkeys p (by simp [hp]))
  · have hnone : ¬ ∃ p, runMap nestedOps (fun _ => none) p = some 1 := by
      rintro ⟨p, hp⟩
      have hvalues : ∀ p ∈ S, runMap nestedOps (fun _ => none) p ≠ some 1 := by decide
      exact hvalues p (hkeys p (by simp [hp])) hp
    exact Bool.eq_false_iff.2 fun h => hnone ((hhas 1).1 h)

/-- With `0.0.0.0/0` stored, adding `::/0` returns false although it is absent; with only
`10.0.0.0/16` stored, a lookup of `10.0.0.0/8` returns it although it does not contain the query. -/
theorem trie_confuses_families_and_lengths :
    ¬ (Op.add (.ofRaw .inet6 [] 0) 2).Correct (fun _ _ => false)
        (run [(fun _ _ => false, Op.add (.ofRaw .inet [] 0) 1)] empty)
        (runMap [(fun _ _ => false, Op.add (.ofRaw .inet [] 0) 1)] fun _ => none) ∧
      ¬ LookupCorrect (fun _ _ => false) (run [(fun _ _ => false, Op.add ten16 1)] empty)
        (runMap [(fun _ _ => false, Op.add ten16 1)] fun _ => none) ten8 := by
  constructor
  · intro h
    have habs : runMap [((fun _ _ => false : Behind), Op.add (.ofRaw .inet [] 0) 1)]
        (fun _ => none) (.ofRaw .inet6 [] 0) = none := by decide
    exact absurd (h.returns.2 (Or.inl habs)) (by decide)
  · intro h
    have hl : (run [((fun _ _ => false : Behind), Op.add ten16 1)] empty).lookup
        (fun _ _ => false) ten8 = some (ten16, 1) := by decide
    exact absurd ((h.1 _ _).1 hl).contains (by decide)

end PatriciaTrie

end Alto
