import Alto.Lib.Run
import Alto.Verify.AdminEffect
import Alto.Verify.AdminIsolation

/-!
# The slots of the view registry

`ViewRegistry` keeps the names of the views in `views_` and the views in its child slots. `add` does
not look whether its name is taken, and no lookup finds the empty name: names and slots correspond
as long as such names are not added (`Op.Free`).
-/

namespace Alto.ViewRegistry

open Lib Prog

variable {env : Env} {type : TxnType} {T T' : ObjTree Payload} {names : StdMap String Nat}
  {name : String} {i j : Nat} {x : Cell Payload}

/-! ## Slots -/

/-- There is a view in a slot. -/
def Occupied (T : ObjTree Payload) (i : Nat) : Prop := (T.cells (viewPath i)).isSome

/-- A registry that is locked for writing, with its slots within the limits. -/
structure Locked (T : ObjTree Payload) (names : StdMap String Nat) (x : Cell Payload) : Prop where
  cell : T.cells viewsPath = some x
  payload : x.payload = .viewRegistry names
  locked : x.locked = true
  width : ∀ i, Occupied T i → i < x.width
  bound : ∀ i, Occupied T i → i < maxViews

theorem Locked.load (h : Locked T names x) : T.load viewsPath = some x := by
  rw [ObjTree.load_eq_some]
  exact ⟨h.cell, by simp [Cell.readable, h.locked]⟩

theorem Locked.filled_iff (h : Locked T names x) :
    filled (T.slots viewsPath x) i = true ↔ Occupied T i := by
  by_cases hi : i < x.width
  · simp [filled, ObjTree.slots, hi, Occupied, viewPath]
  · have hno : ¬ Occupied T i := fun ho => hi (h.width i ho)
    simp [filled, ObjTree.slots, hi, hno]

/-- All slots are in use. -/
def Full (T : ObjTree Payload) : Prop := ∀ i < maxViews, Occupied T i

theorem Locked.freeSlot_none (h : Locked T names x) :
    freeSlot (T.slots viewsPath x) = none ↔ Full T := by
  rw [freeSlot, List.find?_eq_none]
  simp only [List.mem_range, Bool.not_eq_true, Bool.not_eq_false', h.filled_iff, Full]

theorem Locked.freeSlot_some (h : Locked T names x)
    (hi : freeSlot (T.slots viewsPath x) = some i) : i < maxViews ∧ ¬ Occupied T i := by
  refine ⟨List.mem_range.1 (List.mem_of_find?_eq_some hi), fun ho => ?_⟩
  have hf := List.find?_some hi
  rw [h.filled_iff.2 ho] at hf
  cases hf

/-! ## The calls -/

/-- The registry with a slot and the names replaced. -/
def put (env : Env) (T : ObjTree Payload) (i : Nat) (value : Option (NewObj Payload))
    (names : StdMap String Nat) : ObjTree Payload :=
  (T.setChild env.copying viewsPath i value).modify viewsPath
    (·.store (.viewRegistry names) true)

theorem put_cells_views (h : T.cells viewsPath = some x) (value : Option (NewObj Payload))
    (names : StdMap String Nat) : (put env T i value names).cells viewsPath =
      some ((x.setChild i).store (.viewRegistry names) true) := by
  rw [put, ObjTree.modify_self, ObjTree.setChild_self, h]
  rfl

theorem put_payload_self (value : Option (NewObj Payload)) (names : StdMap String Nat) :
    (put env T i value names).payload (viewPath i) = value.map (·.payload) := by
  rw [put, ObjTree.payload_modify_ne _ _ (by simp [viewPath, viewsPath])]
  have := ObjTree.payload_setChild_below T env.copying viewsPath i value []
  rw [List.nil_append] at this
  rw [viewPath, this]
  cases value <;> rfl

theorem put_payload_ne (value : Option (NewObj Payload)) (names : StdMap String Nat) (h : j ≠ i) :
    (put env T i value names).payload (viewPath j) = T.payload (viewPath j) := by
  rw [put, ObjTree.payload_modify_ne _ _ (by simp [viewPath, viewsPath])]
  refine ObjTree.payload_setChild_other _ _ _ _ fun hs => h ?_
  simpa [viewPath, eq_comm] using List.IsSuffix.eq_of_length hs rfl

theorem put_occupied (value : Option (NewObj Payload)) (names : StdMap String Nat) :
    Occupied (put env T i value names) j ↔ if j = i then value.isSome = true else Occupied T j := by
  rw [Occupied, ← ObjTree.payload_isSome]
  split
  · next h =>
    subst h
    rw [put_payload_self, Option.isSome_map]
  · next h => rw [put_payload_ne value names h, ObjTree.payload_isSome, Occupied]

theorem Locked.put (env : Env) (h : Locked T names x) (hi : i < maxViews) (value : Option (NewObj Payload))
    (names' : StdMap String Nat) : Locked (put env T i value names') names'
      ((x.setChild i).store (.viewRegistry names') true) where
  cell := put_cells_views h.cell value names'
  payload := by simp
  locked := by simpa using h.locked
  width j hj := by
    rw [put_occupied] at hj
    simp only [Cell.store_width, Cell.setChild_width]
    split at hj
    · omega
    · have := h.width j hj
      omega
  bound j hj := by
    rw [put_occupied] at hj
    split at hj
    · omega
    · exact h.bound j hj

theorem Locked.run_get (h : Locked T names x) (name : String) :
    (get name).run env.copying type T =
      (.ok ((names[resolveName name]?).filter fun i => filled (T.slots viewsPath x) i), T) := by
  rw [get, run_bind]
  simp only [loadViews, run, h.load, h.payload]
  cases names[resolveName name]? with
  | none => rfl
  | some i =>
    simp only [run, h.load, Option.filter_some]

/-- `set_child` followed by a change of `views_`. -/
theorem Locked.run_put (env : Env) (h : Locked T names x) (i : Nat) (value : Option (NewObj Payload))
    (names' : StdMap String Nat) :
    T.setChild? env.copying [viewsIdx] i value = some (T.setChild env.copying viewsPath i value) ∧
      (T.setChild env.copying viewsPath i value).load viewsPath = some (x.setChild i) ∧
      (T.setChild env.copying viewsPath i value).store [viewsIdx] (.viewRegistry names') true =
        some (ViewRegistry.put env T i value names') := by
  have hcells : (T.setChild env.copying viewsPath i value).cells viewsPath =
      some (x.setChild i) := by
    rw [ObjTree.setChild_self, h.cell]
    rfl
  refine ⟨ObjTree.setChild?_eq_some.2 ⟨x, h.cell, h.locked, rfl⟩,
    ObjTree.load_eq_some.2 ⟨hcells, by simp [Cell.readable, h.locked]⟩,
    ObjTree.store_eq_some.2 ⟨x.setChild i, hcells, by simpa using h.locked, rfl⟩⟩

theorem Locked.run_add (env : Env) (type : TxnType) (h : Locked T names x) (name : String) :
    (add name).run env.copying type T =
      match freeSlot (T.slots viewsPath x) with
      | none => (.ok false, T)
      | some i =>
        (.ok true, ViewRegistry.put env T i (some (newView name)) (names.insert name i)) := by
  simp only [add, run, h.load]
  cases freeSlot (T.slots viewsPath x) with
  | none => rfl
  | some i =>
    obtain ⟨hset, hload, hstore⟩ := h.run_put env i (some (newView name))
      (names.insert name i)
    simp only [run_bind, run, hset, loadViews, hload, Cell.setChild_payload, h.payload, Prog.put,
      hstore]
    rfl

theorem Locked.run_remove (h : Locked T names x) (name : String) :
    (remove name).run env.copying type T =
      match names[name]? with
      | none => (.ok false, T)
      | some i => (.ok true, ViewRegistry.put env T i none (names.erase name)) := by
  rw [remove, run_bind]
  simp only [loadViews, run, h.load, h.payload]
  cases names[name]? with
  | none => rfl
  | some i =>
    obtain ⟨hset, -, hstore⟩ := h.run_put env i none (names.erase name)
    simp only [run_bind, run, hset, Prog.put, hstore]
    rfl

theorem Locked.any_slots (h : Locked T names x) :
    (T.slots viewsPath x).any id = true ↔ ∃ i, Occupied T i := by
  simp only [ObjTree.slots, List.any_map, List.any_eq_true, List.mem_range, Function.comp_apply,
    id_eq]
  constructor
  · rintro ⟨i, -, hi⟩
    exact ⟨i, hi⟩
  · rintro ⟨i, hi⟩
    exact ⟨i, h.width i hi, hi⟩

theorem Locked.run_onUpdate (h : Locked T names x) (ho : ∃ i, Occupied T i) :
    onUpdate.run env.copying type T = (.ok (), T) := by
  simp only [onUpdate, run, h.load]
  rw [if_pos (h.any_slots.2 ho)]
  rfl

theorem Locked.run_onUpdate_new (h : Locked T names x) (ho : ∀ i, ¬ Occupied T i) :
    onUpdate.run env.copying type T =
      (.ok (), ViewRegistry.put env T 0 (some (newView defaultViewName))
        (names.insert defaultViewName 0)) := by
  have hfree : freeSlot (T.slots viewsPath x) = some 0 := by
    have hf : filled (T.slots viewsPath x) 0 = false := by
      rw [← Bool.not_eq_true, h.filled_iff]
      exact ho 0
    rw [freeSlot, maxViews, List.range_succ_eq_map, List.find?_cons]
    simp [hf]
  simp only [onUpdate, run, h.load]
  rw [if_neg fun hs => (h.any_slots.1 hs).elim ho, run_bind, h.run_add, hfree]
  rfl

/-! ## Names -/

/-- `views_`. -/
def views (T : ObjTree Payload) : StdMap String Nat :=
  match T.payload viewsPath with
  | some (.viewRegistry views) => views
  | _ => ∅

theorem Locked.views_eq {names : StdMap String Nat} (h : Locked T names x) : views T = names := by
  rw [views, ObjTree.payload_of_cells h.cell, h.payload]

/-- Each name belongs to a slot with the view that was created under it, and each slot with a view
to exactly one name. -/
structure Consistent (T : ObjTree Payload) : Prop where
  holds : ∀ (name : String) (i : Nat), (views T)[name]? = some i →
    ∃ v, T.payload (viewPath i) = some (.view v) ∧ v.name = name
  named : ∀ i, Occupied T i → ∃! name : String, (views T)[name]? = some i

/-- The invariant of the registry. -/
structure Inv (T : ObjTree Payload) : Prop where
  locked : ∃ x, Locked T (views T) x
  consistent : Consistent T
  nonempty : (views T)[""]? = none

/-- A registry without views. -/
def New (T : ObjTree Payload) : Prop := (∃ x, Locked T ∅ x) ∧ ∀ i, ¬ Occupied T i

theorem inv_new (h : New T) : Inv T := by
  obtain ⟨⟨x, hx⟩, ho⟩ := h
  have hviews := hx.views_eq
  refine ⟨⟨x, hviews ▸ hx⟩, ⟨fun name i hi => ?_, fun i hi => absurd hi (ho i)⟩, ?_⟩
  · simp [hviews] at hi
  · simp [hviews]

namespace Inv

theorem occupied (h : Inv T) (hi : (views T)[name]? = some i) : Occupied T i := by
  obtain ⟨v, hv, -⟩ := h.consistent.holds name i hi
  rw [Occupied, ← ObjTree.payload_isSome, hv]
  rfl

/-- A slot has one name. -/
theorem name_inj (h : Inv T) {name' : String} (hi : (views T)[name]? = some i)
    (hi' : (views T)[name']? = some i) : name = name' := by
  obtain ⟨v, hv, rfl⟩ := h.consistent.holds name i hi
  obtain ⟨v', hv', rfl⟩ := h.consistent.holds name' i hi'
  cases hv.symm.trans hv'
  rfl

theorem run_get (h : Inv T) (name : String) :
    (get name).run env.copying type T = (.ok (views T)[resolveName name]?, T) := by
  obtain ⟨x, hx⟩ := h.locked
  rw [hx.run_get]
  cases hi : (views T)[resolveName name]? with
  | none => rfl
  | some i => rw [Option.filter_some, if_pos (hx.filled_iff.2 (h.occupied hi))]

theorem views_put (env : Env) (h : Inv T) (hi : i < maxViews) (value : Option (NewObj Payload))
    (names : StdMap String Nat) : views (ViewRegistry.put env T i value names) = names := by
  obtain ⟨x, hx⟩ := h.locked
  exact (hx.put env hi value names).views_eq

theorem put_new (env : Env) (h : Inv T) (hi : i < maxViews) (ho : ¬ Occupied T i) (hname : name ≠ "")
    (hno : (views T)[name]? = none) :
    Inv (ViewRegistry.put env T i (some (newView name)) ((views T).insert name i)) := by
  have hviews := h.views_put env hi (some (newView name)) ((views T).insert name i)
  obtain ⟨x, hx⟩ := h.locked
  refine ⟨⟨_, by rw [hviews]; exact hx.put env hi _ _⟩, ⟨fun n j hj => ?_, fun j hj => ?_⟩, ?_⟩
  · rw [hviews, StdMap.get_insert] at hj
    split at hj
    · next hn =>
      cases hj
      exact ⟨.new name, put_payload_self _ _, hn⟩
    · have hji : j ≠ i := by
        rintro rfl
        exact ho (h.occupied hj)
      rw [put_payload_ne _ _ hji]
      exact h.consistent.holds n j hj
  · rw [put_occupied] at hj
    rw [hviews]
    simp only [StdMap.get_insert]
    by_cases hji : j = i
    · subst hji
      refine ⟨name, by simp, fun n hn => ?_⟩
      by_contra hne
      have hn : (views T)[n]? = some j := by simpa [Ne.symm hne] using hn
      exact ho (h.occupied hn)
    · rw [if_neg hji] at hj
      obtain ⟨n, hn, huniq⟩ := h.consistent.named j hj
      refine ⟨n, ?_, fun m hm => huniq m ?_⟩
      · have hne : name ≠ n := fun heq => by simp [← heq, hno] at hn
        simpa [hne] using hn
      · by_cases hm' : name = m
        · exact absurd (by simpa [hm'] using hm) (Ne.symm hji)
        · simpa [hm'] using hm
  · rw [hviews, StdMap.get_insert, if_neg hname]
    exact h.nonempty

theorem put_none (h : Inv T) (hi : (views T)[name]? = some i) :
    Inv (ViewRegistry.put env T i none ((views T).erase name)) := by
  obtain ⟨x, hx⟩ := h.locked
  have hlt := hx.bound i (h.occupied hi)
  have hviews := h.views_put env hlt none ((views T).erase name)
  refine ⟨⟨_, by rw [hviews]; exact hx.put env hlt _ _⟩, ⟨fun n j hj => ?_, fun j hj => ?_⟩, ?_⟩
  · rw [hviews, StdMap.get_erase] at hj
    split at hj
    · cases hj
    · next hne =>
      have hji : j ≠ i := by
        rintro rfl
        exact hne (h.name_inj hi hj)
      rw [put_payload_ne _ _ hji]
      exact h.consistent.holds n j hj
  · rw [put_occupied] at hj
    have hji : j ≠ i := by
      rintro rfl
      simp at hj
    rw [if_neg hji] at hj
    rw [hviews]
    simp only [StdMap.get_erase]
    obtain ⟨n, hn, huniq⟩ := h.consistent.named j hj
    refine ⟨n, ?_, fun m hm => huniq m ?_⟩
    · have hne : name ≠ n := by
        rintro rfl
        exact hji (Option.some.inj (hn.symm.trans hi))
      simpa [hne] using hn
    · by_cases hm' : name = m
      · simp [hm'] at hm
      · simpa [hm'] using hm
  · rw [hviews, StdMap.get_erase]
    split
    · rfl
    · exact h.nonempty

/-- `DistributedObject::copy`. -/
theorem copy (h : Inv T) (hx : T.cells viewsPath = some x) :
    Inv (T.copyAt env.copying [] viewsIdx x) := by
  obtain ⟨y, hy⟩ := h.locked
  cases hy.cell.symm.trans hx
  have hslot : ∀ i, (T.copyAt env.copying [] viewsIdx x).cells (viewPath i) =
      T.cells (viewPath i) := by
    intro i
    simp [ObjTree.copyAt, ObjTree.modify, viewPath, viewsPath]
  have hocc : ∀ i, Occupied (T.copyAt env.copying [] viewsIdx x) i ↔ Occupied T i := by
    intro i
    rw [Occupied, hslot, Occupied]
  have hcell : (T.copyAt env.copying [] viewsIdx x).cells viewsPath =
      some ⟨.viewRegistry (views T), x.width, env.junk T.next, false, false, true⟩ := by
    simp [ObjTree.copyAt, ObjTree.modify, viewsPath, hy.payload, Env.copying, Payload.copyOf]
  have hlocked : Locked (T.copyAt env.copying [] viewsIdx x) (views T)
      ⟨.viewRegistry (views T), x.width, env.junk T.next, false, false, true⟩ :=
    ⟨hcell, rfl, rfl, fun i hi => hy.width i ((hocc i).1 hi), fun i hi => hy.bound i ((hocc i).1 hi)⟩
  have hviews := hlocked.views_eq
  refine ⟨⟨_, hviews.symm ▸ hlocked⟩, ⟨fun n i hi => ?_, fun i hi => ?_⟩, ?_⟩
  · rw [ObjTree.payload, hslot]
    exact h.consistent.holds n i (hviews ▸ hi)
  · rw [hviews]
    exact h.consistent.named i ((hocc i).1 hi)
  · rw [hviews]
    exact h.nonempty

end Inv

/-! ## Runs -/

/-- The operations on a registry. -/
inductive Op where
  | add (name : String)
  | remove (name : String)
  | onUpdate
  | copy

/-- The state after a call that returns. -/
def returned {α : Type} : Outcome α × ObjTree Payload → Option (ObjTree Payload)
  | (.ok _, T) => some T
  | _ => none

/-- An operation. After `copy` the new object takes the place of the registry. -/
def step (env : Env) (T : ObjTree Payload) : Op → Option (ObjTree Payload)
  | .add name => returned ((add name).run env.copying .copyOnWrite T)
  | .remove name => returned ((remove name).run env.copying .copyOnWrite T)
  | .onUpdate => returned (onUpdate.run env.copying .copyOnWrite T)
  | .copy => (T.cells viewsPath).map (T.copyAt env.copying [] viewsIdx)

/-- A name that may be added: it is not empty and not taken, unless there is no slot for it. -/
def Free (T : ObjTree Payload) (name : String) : Prop :=
  Full T ∨ name ≠ "" ∧ (views T)[name]? = none

def Op.Free (T : ObjTree Payload) : Op → Prop
  | .add name => ViewRegistry.Free T name
  | _ => True

/-- What `add` owes. -/
structure AddCorrect (env : Env) (type : TxnType) (T : ObjTree Payload) (name : String) :
    Prop where
  refuses : (∃ i, (views T)[name]? = some i) ∨ Full T →
    (add name).run env.copying type T = (.ok false, T)
  registers : (views T)[name]? = none → ¬ Full T → ∃ T' i,
    (add name).run env.copying type T = (.ok true, T') ∧ ¬ Occupied T i ∧
      T'.payload (viewPath i) = some (.view (.new name)) ∧
      views T' = (views T).insert name i ∧
      (get name).run env.copying type T' = (.ok (some i), T')

namespace Inv

theorem addCorrect_iff (h : Inv T) (name : String) :
    AddCorrect env type T name ↔ Free T name := by
  obtain ⟨x, hx⟩ := h.locked
  have hadd := hx.run_add env type name
  cases hs : freeSlot (T.slots viewsPath x) with
  | none =>
    have hfull := hx.freeSlot_none.1 hs
    rw [hs] at hadd
    exact iff_of_true ⟨fun _ => hadd, fun _ hno => absurd hfull hno⟩ (Or.inl hfull)
  | some i =>
    obtain ⟨hi, ho⟩ := hx.freeSlot_some hs
    have hfull : ¬ Full T := fun hf => ho (hf i hi)
    rw [hs] at hadd
    simp only [Free, hfull, false_or]
    constructor
    · intro hc
      have hno : (views T)[name]? = none := by
        by_contra hsome
        have := hc.refuses (Or.inl (Option.ne_none_iff_exists'.1 hsome))
        rw [hadd] at this
        cases this
      refine ⟨?_, hno⟩
      rintro rfl
      -- the view would be found under the name of the default view
      obtain ⟨T', j, hT', hj, -, hviews, hget⟩ := hc.registers hno hfull
      obtain rfl : ViewRegistry.put env T i (some (newView "")) ((views T).insert "" i) = T' := by
        rw [hadd] at hT'
        exact (Prod.ext_iff.1 hT').2
      have hlocked := hx.put env hi (some (newView "")) ((views T).insert "" i)
      rw [hlocked.run_get, Prod.ext_iff] at hget
      have hdef : ((views T).insert "" i)[defaultViewName]? = (views T)[defaultViewName]? := by
        rw [StdMap.get_insert, if_neg (by decide)]
      have hsome := Outcome.ok.inj hget.1
      rw [Option.filter_eq_some_iff] at hsome
      have hres : resolveName "" = defaultViewName := rfl
      rw [hres, hdef] at hsome
      exact hj (h.occupied hsome.1)
    · rintro ⟨hname, hno⟩
      have hinv := h.put_new env hi ho hname hno
      have hviews := h.views_put env hi (some (newView name)) ((views T).insert name i)
      refine ⟨fun hor => ?_, fun _ _ => ⟨_, i, hadd, ho, put_payload_self _ _, hviews, ?_⟩⟩
      · rcases hor with ⟨j, hj⟩ | hf
        · simp [hno] at hj
        · exact absurd hf hfull
      · rw [hinv.run_get, hviews, resolveName, if_pos hname]
        simp

theorem run_onUpdate (env : Env) (type : TxnType) (h : Inv T) :
    ∃ T', onUpdate.run env.copying type T = (.ok (), T') ∧ Inv T' ∧
    ∃ (name : String) (i : Nat), (views T')[name]? = some i := by
  obtain ⟨x, hx⟩ := h.locked
  by_cases ho : ∃ i, Occupied T i
  · refine ⟨T, hx.run_onUpdate ho, h, ?_⟩
    obtain ⟨i, hi⟩ := ho
    obtain ⟨name, hname, -⟩ := h.consistent.named i hi
    exact ⟨name, i, hname⟩
  · have hno : ∀ i, ¬ Occupied T i := fun i hi => ho ⟨i, hi⟩
    have hempty : (views T)[defaultViewName]? = none := by
      by_contra hsome
      obtain ⟨i, hi⟩ := Option.ne_none_iff_exists'.1 hsome
      exact hno i (h.occupied hi)
    refine ⟨_, hx.run_onUpdate_new hno, h.put_new env (by decide) (hno 0) (by decide) hempty,
      defaultViewName, 0, ?_⟩
    rw [h.views_put env (by decide)]
    simp

theorem step (h : Inv T) {o : Op} (hfree : o.Free T) (hs : step env T o = some T') : Inv T' := by
  obtain ⟨x, hx⟩ := h.locked
  cases o with
  | add name =>
    rw [ViewRegistry.step, hx.run_add] at hs
    cases hslot : freeSlot (T.slots viewsPath x) with
    | none =>
      rw [hslot] at hs
      cases hs
      exact h
    | some i =>
      rw [hslot] at hs
      cases hs
      obtain ⟨hi, ho⟩ := hx.freeSlot_some hslot
      obtain ⟨hname, hno⟩ := hfree.resolve_left fun hf => ho (hf i hi)
      exact h.put_new env hi ho hname hno
  | remove name =>
    rw [ViewRegistry.step, hx.run_remove] at hs
    cases hi : (views T)[name]? with
    | none =>
      rw [hi] at hs
      cases hs
      exact h
    | some i =>
      rw [hi] at hs
      cases hs
      exact h.put_none hi
  | onUpdate =>
    obtain ⟨T₁, hT₁, hinv, -⟩ := h.run_onUpdate env .copyOnWrite
    rw [ViewRegistry.step, hT₁] at hs
    cases hs
    exact hinv
  | copy =>
    rw [ViewRegistry.step, hx.cell] at hs
    cases hs
    exact h.copy hx.cell

end Inv

/-- In every run that adds no empty and no registered name, unless the registry is full, names and
slots correspond, `get` finds exactly the registered views, `add` does what it owes exactly for such
names, and there is a view after `on_update`. -/
theorem registry_slots_are_named (env : Env) (type : TxnType) {T₀ T : ObjTree Payload}
    {ops : List Op} (h0 : New T₀) (hr : Run (step env) (fun T o => o.Free T) T₀ ops T) :
    Consistent T ∧
      (∀ (name : String) (i : Nat), (views T)[name]? = some i →
        (get name).run env.copying type T = (.ok (some i), T)) ∧
      (∀ name, (get name).run env.copying type T = (.ok (views T)[resolveName name]?, T)) ∧
      (∀ name, AddCorrect env type T name ↔ Free T name) ∧
      ∃ T', onUpdate.run env.copying type T = (.ok (), T') ∧
        ∃ (name : String) (i : Nat), (views T')[name]? = some i := by
  have h : Inv T := hr.invariant (inv_new h0) fun _ _ _ h hfree hs => h.step hfree hs
  obtain ⟨T', hT', -, hviews⟩ := h.run_onUpdate env type
  refine ⟨h.consistent, fun name i hi => ?_, fun name => h.run_get name,
    fun name => h.addCorrect_iff name, T', hT', hviews⟩
  have hname : name ≠ "" := by
    rintro rfl
    simp [h.nonempty] at hi
  rw [h.run_get, resolveName, if_pos hname, hi]

/-- A registry that has just been made. -/
def fresh : ObjTree Payload where
  cells p :=
    if p = viewsPath then some ⟨.viewRegistry ∅, 0, 0, false, false, true⟩
    else if p = [] then some ⟨.globalState, 2, 0, false, false, true⟩
    else none
  next := 0

theorem new_fresh : New fresh := by
  have hno : ∀ i, ¬ Occupied fresh i := by
    intro i
    simp [Occupied, fresh, viewPath, viewsPath]
  exact ⟨⟨_, ⟨rfl, rfl, rfl, fun i hi => absurd hi (hno i), fun i hi => absurd hi (hno i)⟩⟩,
    hno⟩

/-- The default view and another one. -/
theorem registry_slots_are_named_two :
    ∃ T, Run (step Server.sampleEnv) (fun T o => o.Free T) fresh [.onUpdate, .add "isp"] T ∧
      Consistent T ∧ (views T)["isp"]? = some 1 := by
  have hr : ∃ T, Run (step Server.sampleEnv) (fun T o => o.Free T) fresh [.onUpdate, .add "isp"] T ∧
      (views T)["isp"]? = some 1 := by
    refine ⟨_, .cons trivial rfl (.cons (Or.inr ⟨by decide, ?_⟩) rfl (.nil _)), ?_⟩
    · rfl
    · rfl
  obtain ⟨T, hr, hisp⟩ := hr
  exact ⟨T, hr, (registry_slots_are_named Server.sampleEnv .copyOnWrite new_fresh hr).1, hisp⟩

/-- A name that is added twice leaves a view without a name. -/
theorem registry_keeps_nameless_view :
    ∃ T, Run (step Server.sampleEnv) (fun _ _ => True) fresh [.add "isp", .add "isp"] T ∧
      ¬ Consistent T := by
  have hr : ∃ T, Run (step Server.sampleEnv) (fun _ _ => True) fresh [.add "isp", .add "isp"] T ∧
      Occupied T 0 ∧ views T = ((∅ : StdMap String Nat).insert "isp" 0).insert "isp" 1 := by
    refine ⟨_, .cons trivial rfl (.cons trivial rfl (.nil _)), ?_, ?_⟩
    · rfl
    · rfl
  obtain ⟨T, hr, hocc, hviews⟩ := hr
  refine ⟨T, hr, fun hc => ?_⟩
  obtain ⟨name, hname, -⟩ := hc.named 0 hocc
  simp only [hviews, StdMap.get_insert] at hname
  split at hname <;> simp_all

end Alto.ViewRegistry
