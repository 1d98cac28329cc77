import Alto.Verify.AdminEffect
import Alto.Verify.AdminIsolation
import Alto.Verify.ProgUnder

/-!
# Failed transactions

No action overrides `AdminAction::rollback`, so that a failed direct transaction leaves what its
actions have done before. What can be seen of it is exact here: an object that has been changed
keeps its new version (`ObjTree.Fired`), and an action leaves nothing to be seen only if it calls no
setter with an effect (`Action.Harmless`).
-/

namespace Alto

open Lib

variable {P : Type} {c : Copying P}

/-! ## Versions in direct transactions -/

/-- In a direct transaction on the objects of `T₀`, the version of an old object counts its first
change, and old objects are children of old objects. -/
structure ObjTree.Tracked (T₀ T : ObjTree P) : Prop where
  unfired : ∀ p x, T.cells p = some x → x.locked = false → x.fired = false
  version : ∀ p x, p ≠ [] → T.cells p = some x → x.old = true → ∃ x₀, T₀.cells p = some x₀ ∧
    x.version = if x.fired then (x₀.version + 1) % 2 ^ 32 else x₀.version
  parent : ∀ p i x, p ≠ [] → T.cells (i :: p) = some x → x.old = true →
    ∃ y, T.cells p = some y ∧ y.old = true
  top : ∀ i x, T.cells [i] = some x → x.old = true

/-- An old object has been changed. -/
def ObjTree.Fired (T : ObjTree P) : Prop :=
  ∃ p x, p ≠ [] ∧ T.cells p = some x ∧ x.old = true ∧ x.fired = true

namespace Cell

variable (x : Cell P)

theorem changed_fired : x.changed.fired = true := by
  unfold changed
  split
  · assumption
  · rfl

theorem changed_version (v : Nat) (h : x.version = if x.fired then (v + 1) % 2 ^ 32 else v) :
    x.changed.version = (v + 1) % 2 ^ 32 := by
  unfold changed
  split
  · next hf => rw [h, if_pos hf]
  · next hf => rw [h, if_neg hf]

theorem store_fired (y : P) : (x.store y true).fired = true := by
  simp [store, changed_fired]

theorem setChild_fired (i : Nat) : (x.setChild i).fired = true := changed_fired _

/-- How an edit of a write-locked cell counts. -/
structure Edits (f : Cell P → Cell P) : Prop where
  old : ∀ x, (f x).old = x.old
  locked : ∀ x, (f x).locked = x.locked
  fired : ∀ x, x.fired = true → (f x).fired = true
  version : ∀ x v, x.version = (if x.fired then (v + 1) % 2 ^ 32 else v) →
    (f x).version = if (f x).fired then (v + 1) % 2 ^ 32 else v

theorem edits_store (y : P) (notify : Bool) : Edits (fun x => x.store y notify) where
  old x := by simp
  locked x := by simp
  fired x h := by
    cases notify with
    | false => exact h
    | true => exact x.store_fired y
  version x v h := by
    cases notify with
    | false => exact h
    | true =>
      rw [store_fired, if_pos rfl]
      exact changed_version { x with payload := y } v h

theorem edits_setChild (i : Nat) : Edits (fun x : Cell P => x.setChild i) where
  old x := by simp
  locked x := by simp
  fired x _ := x.setChild_fired i
  version x v h := by
    rw [setChild_fired, if_pos rfl]
    exact changed_version { x with width := max x.width (i + 1) } v h

end Cell

namespace ObjTree

variable {T₀ T : ObjTree P}

theorem Tracked.modify (h : T₀.Tracked T) {p : Path} {f : Cell P → Cell P} {x : Cell P}
    (hx : T.cells p = some x) (ho : (f x).old = x.old)
    (hl : (f x).locked = false → (f x).fired = false)
    (hv : ∀ v, x.version = (if x.fired then (v + 1) % 2 ^ 32 else v) →
      (f x).version = if (f x).fired then (v + 1) % 2 ^ 32 else v) : T₀.Tracked (T.modify p f) := by
  have hself : (T.modify p f).cells p = some (f x) := by rw [modify_self, hx]; rfl
  refine ⟨fun r y hy hyl => ?_, fun r y hr hy hyo => ?_, fun r i y hr hy hyo => ?_,
    fun i y hy => ?_⟩
  · by_cases hrp : r = p
    · subst hrp
      cases hself.symm.trans hy
      exact hl hyl
    · rw [modify_ne T f hrp] at hy
      exact h.unfired r y hy hyl
  · by_cases hrp : r = p
    · subst hrp
      cases hself.symm.trans hy
      obtain ⟨x₀, hx₀, hxv⟩ := h.version r x hr hx (ho ▸ hyo)
      exact ⟨x₀, hx₀, hv _ hxv⟩
    · rw [modify_ne T f hrp] at hy
      exact h.version r y hr hy hyo
  · have hz : ∃ z, T.cells (i :: r) = some z ∧ z.old = true := by
      by_cases hrp : i :: r = p
      · subst hrp
        cases hself.symm.trans hy
        exact ⟨x, hx, ho ▸ hyo⟩
      · rw [modify_ne T f hrp] at hy
        exact ⟨y, hy, hyo⟩
    obtain ⟨z, hz, hzo⟩ := hz
    obtain ⟨u, hu, huo⟩ := h.parent r i z hr hz hzo
    by_cases hrp : r = p
    · subst hrp
      cases hx.symm.trans hu
      exact ⟨f x, hself, ho.trans huo⟩
    · exact ⟨u, by rwa [modify_ne T f hrp], huo⟩
  · by_cases hip : [i] = p
    · subst hip
      cases hself.symm.trans hy
      exact ho.trans (h.top i x hx)
    · rw [modify_ne T f hip] at hy
      exact h.top i y hy

theorem Tracked.edit (h : T₀.Tracked T) {p : Path} {f : Cell P → Cell P} (hf : Cell.Edits f)
    {x : Cell P} (hx : T.cells p = some x) (hl : x.locked = true) : T₀.Tracked (T.modify p f) :=
  h.modify hx (hf.old x) (fun hl' => absurd ((hf.locked x).symm.trans hl') (by simp [hl]))
    (hf.version x)

theorem Tracked.graft (h : T₀.Tracked T) {p : Path} (hp : 2 ≤ p.length)
    {new : Path → Option (Cell P)}
    (hnew : ∀ s x, new s = some x → x.old = false ∧ x.fired = false) :
    T₀.Tracked (T.graft p new) := by
  have hcells : ∀ r y, (T.graft p new).cells r = some y →
      (y.old = false ∧ y.fired = false) ∨ ¬ p <:+ r ∧ T.cells r = some y := by
    intro r y hy
    by_cases hr : p <:+ r
    · obtain ⟨s, rfl⟩ := hr
      rw [graft_below] at hy
      exact Or.inl (hnew s y hy)
    · rw [graft_other T new hr] at hy
      exact Or.inr ⟨hr, hy⟩
  refine ⟨fun r y hy hyl => ?_, fun r y hr hy hyo => ?_, fun r i y hr hy hyo => ?_,
    fun i y hy => ?_⟩
  · rcases hcells r y hy with ⟨-, hf⟩ | ⟨-, hy⟩
    · exact hf
    · exact h.unfired r y hy hyl
  · rcases hcells r y hy with ⟨ho, -⟩ | ⟨-, hy⟩
    · exact absurd (ho.symm.trans hyo) (by simp)
    · exact h.version r y hr hy hyo
  · rcases hcells (i :: r) y hy with ⟨ho, -⟩ | ⟨hn, hy⟩
    · exact absurd (ho.symm.trans hyo) (by simp)
    · obtain ⟨u, hu, huo⟩ := h.parent r i y hr hy hyo
      exact ⟨u, by rwa [graft_other T new fun hs => hn (hs.trans (List.suffix_cons i r))], huo⟩
  · rw [graft_other T new fun hs => by simpa using hp.trans hs.length_le] at hy
    exact h.top i y hy

theorem newCells_fresh (n : Nat) (x : NewObj P) (s : Path) (y : Cell P)
    (h : newCells c n x s = some y) : y.old = false ∧ y.fired = false := by
  match s with
  | [] =>
    cases h
    exact ⟨rfl, rfl⟩
  | [j] =>
    obtain ⟨z, -, rfl⟩ := Option.map_eq_some_iff.1 h
    exact ⟨rfl, rfl⟩
  | _ :: _ :: _ => cases h

theorem Tracked.setChild (h : T₀.Tracked T) {p : Path} (hp : p ≠ []) {x : Cell P}
    (hx : T.cells p = some x) (hl : x.locked = true) (i : Nat) (value : Option (NewObj P)) :
    T₀.Tracked (T.setChild c p i value) := by
  have hlen : 2 ≤ (i :: p).length := Nat.succ_le_succ (List.length_pos_iff.2 hp)
  have hg := (h.edit (Cell.edits_setChild i) hx hl).graft hlen
    fun s y (hy : value.elim (fun _ => none) (newCells c T.next) s = some y) => by
      cases value with
      | none => cases hy
      | some z => exact newCells_fresh T.next z s y hy
  exact ⟨hg.unfired, hg.version, hg.parent, hg.top⟩

/-- The objects above an old one are old. -/
theorem Tracked.old_above (h : T₀.Tracked T) {p : Path} (hp : p ≠ []) (s : Path) {x : Cell P}
    (hx : T.cells (s ++ p) = some x) (ho : x.old = true) :
    ∃ y, T.cells p = some y ∧ y.old = true := by
  induction s generalizing x with
  | nil => exact ⟨x, hx, ho⟩
  | cons i s ih =>
    obtain ⟨y, hy, hyo⟩ := h.parent (s ++ p) i x (by simp [hp]) hx ho
    exact ih hy hyo

theorem Fired.edit (h : T.Fired) (p : Path) {f : Cell P → Cell P} (hf : Cell.Edits f) :
    (T.modify p f).Fired := by
  obtain ⟨r, x, hr, hx, ho, hfi⟩ := h
  by_cases hrp : r = p
  · subst hrp
    exact ⟨r, f x, hr, by rw [modify_self, hx]; rfl, (hf.old x).trans ho, hf.fired x hfi⟩
  · exact ⟨r, x, hr, by rwa [modify_ne T f hrp], ho, hfi⟩

theorem fired_setChild {p : Path} (hp : p ≠ []) {x : Cell P} (hx : T.cells p = some x)
    (ho : x.old = true) (i : Nat) (value : Option (NewObj P)) : (T.setChild c p i value).Fired := by
  refine ⟨p, x.setChild i, hp, ?_, by simpa using ho, x.setChild_fired i⟩
  rw [setChild_self, hx]
  rfl

theorem Fired.setChild (h : T.Fired) (ht : T₀.Tracked T) {p : Path} (hp : p ≠ []) (i : Nat)
    (value : Option (NewObj P)) : (T.setChild c p i value).Fired := by
  obtain ⟨r, x, hr, hx, ho, hfi⟩ := h
  by_cases hs : (i :: p) <:+ r
  · -- the changed object is gone with its parent's slot, which is a change of the parent
    obtain ⟨s, rfl⟩ := hs
    obtain ⟨y, hy, hyo⟩ := ht.old_above hp (s ++ [i]) (by simpa using hx) ho
    exact fired_setChild hp hy hyo i value
  · have hcells : (T.setChild c p i value).cells r = (T.modify p (·.setChild i)).cells r :=
      graft_other _ _ hs
    by_cases hrp : r = p
    · subst hrp
      exact ⟨r, x.setChild i, hr, by rw [hcells, modify_self, hx]; rfl, by simpa using ho,
        x.setChild_fired i⟩
    · exact ⟨r, x, hr, by rwa [hcells, modify_ne T _ hrp], ho, hfi⟩

theorem Tracked.lock (h : T₀.Tracked T) {p : Path} {x : Cell P} (hx : T.cells p = some x)
    (hl : x.locked = false) : T₀.Tracked (T.modify p Cell.lock) := by
  refine h.modify hx rfl (fun _ => rfl) fun v hv => ?_
  rw [h.unfired p x hx hl] at hv
  exact hv

theorem Tracked.run {α : Type} (h : T₀.Tracked T) (prog : Prog P α) :
    T₀.Tracked (prog.run c .directWrite T).2 :=
  Prog.run_invariant (I := T₀.Tracked) (fun _ _ _ _ h hx hl _ => h.lock hx hl)
    (fun _ _ _ _ _ _ ht => absurd ht (by simp))
    (fun _ _ _ _ v notify h hx hl => h.edit (Cell.edits_store v notify) hx hl)
    (fun _ _ _ _ _ _ h hx hl => h.setChild (List.cons_ne_nil _ _) hx hl _ _) prog h

theorem Fired.run {α : Type} (h : T.Fired) (ht : T₀.Tracked T) (prog : Prog P α) :
    (prog.run c .directWrite T).2.Fired := by
  refine (Prog.run_invariant (I := fun T => T.Fired ∧ T₀.Tracked T)
    (fun T q i x h hx hl _ => ⟨?_, h.2.lock hx hl⟩) (fun _ _ _ _ _ _ ht => absurd ht (by simp))
    (fun _ _ _ _ v notify h hx hl => ⟨h.1.edit _ (Cell.edits_store v notify),
      h.2.edit (Cell.edits_store v notify) hx hl⟩)
    (fun _ _ _ _ _ _ h hx hl => ⟨h.1.setChild h.2 (List.cons_ne_nil _ _) _ _,
      h.2.setChild (List.cons_ne_nil _ _) hx hl _ _⟩) prog ⟨h, ht⟩).1
  -- a changed object is locked already
  obtain ⟨r, y, hr, hy, ho, hf⟩ := h.1
  refine ⟨r, y, hr, ?_, ho, hf⟩
  rw [modify_ne T _ ?_]
  · exact hy
  · rintro rfl
    cases hx.symm.trans hy
    exact absurd ((h.2.unfired _ _ hx hl).symm.trans hf) (by simp)

/-- A changed object has another version than before. -/
theorem Tracked.version_ne (h : T₀.Tracked T) (hf : T.Fired) :
    ∃ p x₀ x, p ≠ [] ∧ T₀.cells p = some x₀ ∧ T.cells p = some x ∧ x.version ≠ x₀.version := by
  obtain ⟨p, x, hp, hx, ho, hfi⟩ := hf
  obtain ⟨x₀, hx₀, hv⟩ := h.version p x hp hx ho
  refine ⟨p, x₀, x, hp, hx₀, hx, ?_⟩
  rw [hv, if_pos hfi]
  omega

/-! ## Trees that differ in locks -/

/-- The same objects, up to the locks. -/
def Same (T₀ T : ObjTree P) : Prop :=
  ∀ p, (T₀.cells p = none ∧ T.cells p = none) ∨
    ∃ x y, T₀.cells p = some x ∧ T.cells p = some y ∧ y = { x with locked := y.locked }

theorem Same.refl (T : ObjTree P) : T.Same T := by
  intro p
  cases hp : T.cells p with
  | none => exact Or.inl ⟨rfl, rfl⟩
  | some x => exact Or.inr ⟨x, x, rfl, rfl, rfl⟩

theorem Same.cell (h : T₀.Same T) {p : Path} {x : Cell P} (hx : T.cells p = some x) :
    T₀.cells p = some { x with locked := (T₀.cells p).elim false (·.locked) } := by
  rcases h p with ⟨-, hn⟩ | ⟨y, z, hy, hz, hzy⟩
  · cases hn.symm.trans hx
  · cases hz.symm.trans hx
    rw [hy]
    rw [hzy]
    rfl

theorem Same.refs {T' : ObjTree P} (h : T₀.Same T) (ht : T₀.Tracked T)
    (hr : Refs c .directWrite T T') : T₀.Same T' := by
  intro p
  have hcell := hr.cell (R := fun x y => (x.locked = false → x.fired = false) →
      y = { x with locked := y.locked } ∧ (y.locked = false → y.fired = false))
    (fun x hx => ⟨rfl, hx⟩)
    (fun x y z hxy hyz hx => by
      obtain ⟨hy, hyl⟩ := hxy hx
      obtain ⟨hz, hzl⟩ := hyz hyl
      rw [hy] at hz
      exact ⟨hz, hzl⟩)
    (fun x hl _ hx => ⟨by rw [Cell.lock, hx hl], fun h => by cases h⟩)
    (fun _ _ ht => absurd ht (by simp)) (fun _ _ ht => absurd ht (by simp)) p
  rcases hcell with ⟨hn, hn'⟩ | ⟨y, z, hy, hz, hyz⟩
  · rcases h p with ⟨h₀, -⟩ | ⟨x, y, -, hy, -⟩
    · exact Or.inl ⟨h₀, hn'⟩
    · cases hn.symm.trans hy
  · rcases h p with ⟨-, hn⟩ | ⟨x, y', hx, hy', hxy⟩
    · cases hn.symm.trans hy
    · cases hy'.symm.trans hy
      obtain ⟨hz', -⟩ := hyz (ht.unfired p y hy)
      rw [hxy] at hz'
      exact Or.inr ⟨x, z, hx, hz, hz'⟩

theorem Same.payload (h : T₀.Same T) (p : Path) : T.payload p = T₀.payload p := by
  rcases h p with ⟨hn, hn'⟩ | ⟨x, y, hx, hy, hxy⟩
  · rw [ObjTree.payload, ObjTree.payload, hn, hn']
  · rw [payload_of_cells hx, payload_of_cells hy, hxy]

end ObjTree

/-! ## Actions that leave nothing to be seen -/

section Congr

variable {T T₁ : ObjTree Payload} (h : ∀ p, p ≠ [] → T₁.payload p = T.payload p)

include h

theorem slot_congr {view : String} {i : Nat} : Slot T₁ view i ↔ Slot T view i := by
  simp only [Slot, ← ObjTree.payload_isSome, h viewsPath (List.cons_ne_nil _ _),
    h (viewPath i) (List.cons_ne_nil _ _)]

theorem named_congr {i : Nat} {name : String} {pid : PID} :
    Named T₁ i name pid ↔ Named T i name pid := by
  simp only [Named, h (childPath i .aggregation) (List.cons_ne_nil _ _)]

theorem computes_of {env : Env} {i : Nat} {v : View} {intra inter : PIDMatrix}
    (hc : Action.Computes env T i v intra inter) : Action.Computes env T₁ i v intra inter := by
  obtain ⟨hv, net, agg, r, link, hnet, hp, hres⟩ := hc
  have hparts : Action.Parts T₁ i agg r link :=
    ⟨(h _ (List.cons_ne_nil _ _)).trans hp.aggregation, (h _ (List.cons_ne_nil _ _)).trans hp.routing,
      (h _ (List.cons_ne_nil _ _)).trans hp.link⟩
  exact ⟨(h _ (List.cons_ne_nil _ _)).trans hv, net, agg, r, link,
    (h _ (List.cons_ne_nil _ _)).trans hnet, hparts, hres⟩

end Congr

namespace Action

/-- An action that may return true without a change: a bare `AdminAction`, a query, or one that
adds or deletes prefixes, all of which the PID map refuses. -/
def Harmless (env : Env) (T : ObjTree Payload) : Action → Prop
  | base => True
  | viewPropGet _ _ _ _ => True
  | viewAddPIDPrefixes view pid prefixes => ∀ i p m, Slot T view i → Named T i pid p →
      T.payload (childPath i .prefixes) = some (.pidMap m) →
      ∀ pfx ∈ prefixes, (m.add env.behind pfx p).1 = false
  | viewDeletePIDPrefixes view pid prefixes => ∀ i p m, Slot T view i → Named T i pid p →
      T.payload (childPath i .prefixes) = some (.pidMap m) →
      ∀ pfx ∈ prefixes, (m.remove env.behind pfx p).1 = false
  | _ => False

theorem harmless_congr (env : Env) {T T₁ : ObjTree Payload}
    (h : ∀ p, p ≠ [] → T₁.payload p = T.payload p) (a : Action) :
    a.Harmless env T₁ ↔ a.Harmless env T := by
  cases a with
  | viewAddPIDPrefixes | viewDeletePIDPrefixes =>
    simp only [Harmless, slot_congr h, named_congr h, h (childPath _ _) (List.cons_ne_nil _ _)]
  | _ => rfl

theorem setsMatrices_congr (env : Env) {T T₁ : ObjTree Payload}
    (h : ∀ p, p ≠ [] → T₁.payload p = T.payload p) (a : Action) :
    a.SetsMatrices env T₁ ↔ a.SetsMatrices env T := by
  have hc : ∀ i v intra inter, Computes env T₁ i v intra inter ↔ Computes env T i v intra inter :=
    fun _ _ _ _ => ⟨computes_of fun p hp => (h p hp).symm, computes_of h⟩
  simp only [SetsMatrices, slot_congr h, hc]

/-- A loop over prefixes changes nothing exactly if no call changes the map. -/
theorem changePrefixes_false {f : PIDMap → IPPrefix → Bool × PIDMap}
    (hf : ∀ m pfx, (f m pfx).1 = false → (f m pfx).2 = m) (m : PIDMap) (prefixes : List IPPrefix) :
    (changePrefixes f m prefixes).1 = false ↔ ∀ pfx ∈ prefixes, (f m pfx).1 = false := by
  have hfold : ∀ (l : List IPPrefix) (b : Bool) (m : PIDMap),
      (l.foldl (fun r pfx => ((f r.2 pfx).1 || r.1, (f r.2 pfx).2)) (b, m)).1 = false ↔
        b = false ∧ ∀ pfx ∈ l, (f m pfx).1 = false := by
    intro l
    induction l with
    | nil => simp
    | cons pfx l ih =>
      intro b m
      rw [List.foldl_cons, ih, Bool.or_eq_false_iff, List.forall_mem_cons]
      constructor
      · rintro ⟨⟨hp, hb⟩, hl⟩
        rw [hf m pfx hp] at hl
        exact ⟨hb, hp, hl⟩
      · rintro ⟨hb, hp, hl⟩
        rw [hf m pfx hp]
        exact ⟨⟨hp, hb⟩, hl⟩
  rw [changePrefixes, hfold]
  simp

theorem add_refused (behind : Behind) (m : PIDMap) (pfx : IPPrefix) (p : PID)
    (h : (m.add behind pfx p).1 = false) : (m.add behind pfx p).2 = m := by
  unfold PatriciaTrie.add at h ⊢
  split
  · rfl
  · next hn =>
    split at h
    · next heq => exact absurd heq (hn _ _ _ _ _)
    · cases h

theorem remove_refused (behind : Behind) (m : PIDMap) (pfx : IPPrefix) (p : PID)
    (h : (m.remove behind pfx p).1 = false) : (m.remove behind pfx p).2 = m := by
  unfold PatriciaTrie.remove at h ⊢
  split
  · next heq =>
    rw [heq] at h
    simp only at h
    split
    · rfl
    · next hd =>
      rw [if_neg hd] at h
      cases h
  · rfl

/-- The network state has lost links. -/
def NetLess (T₀ T : ObjTree Payload) : Prop :=
  ∃ net₀ net, T₀.payload netPath = some (.netState net₀) ∧ T.payload netPath = some (.netState net) ∧
    net.graph.edges.size < net₀.graph.edges.size

variable {env : Env} {T₀ T T' : ObjTree Payload} {a : Action}

theorem removeEdge_size {net net' : NetState} {e : NetEdge} (h : net.removeEdge e = some net') :
    net'.graph.edges.size < net.graph.edges.size := by
  obtain ⟨props, hprops, rfl⟩ := Option.map_eq_some_iff.1 h
  have hmem : toLex (e.src, e.dst) ∈ net.graph.edges := by
    unfold NetGraph.edge? at hprops
    split at hprops
    · next heq =>
      rw [Std.ExtTreeMap.mem_iff_isSome_getElem?, heq]
      rfl
    · cases hprops
  have hpos : net.graph.edges.size ≠ 0 := fun h0 => by
    rw [← Std.ExtTreeMap.eq_empty_iff_size_eq_zero] at h0
    rw [h0] at hmem
    exact Std.ExtTreeMap.not_mem_empty hmem
  show (net.graph.edges.erase (toLex (e.src, e.dst))).size < _
  rw [Std.ExtTreeMap.size_erase, if_pos (Std.ExtTreeMap.contains_iff_mem.2 hmem)]
  omega

theorem fired_store {p : Path} (hp : p ≠ []) {y : Payload} (hy : T.payload p = some y)
    (hold : ∀ x, T.cells p = some x → x.old = true) (v : Payload) :
    (T.modify p (·.store v true)).Fired := by
  obtain ⟨x, hx, -⟩ := Option.map_eq_some_iff.1 hy
  exact ⟨p, x.store v true, hp, by rw [ObjTree.modify_self, hx]; rfl, by simpa using hold x hx,
    x.store_fired v⟩

/-- An action on the network state. -/
theorem OnNet.seen (env : Env) {net net' : NetState} {notify : Bool}
    (hp : T.payload netPath = some (.netState net)) (h : OnNet net a net' notify)
    (hold : ∀ x, T.cells netPath = some x → x.old = true) :
    ¬ a.Harmless env T ∧ ((T.modify netPath (·.store (.netState net') notify)).Fired ∨
      NetLess T (T.modify netPath (·.store (.netState net') notify))) := by
  cases h with
  | nodeAdd | nodeDelete | linkAdd =>
    exact ⟨id, Or.inl (fired_store (List.cons_ne_nil _ _) hp hold _)⟩
  | linkDelete _ h =>
    exact ⟨id, Or.inr ⟨net, net', hp, ObjTree.payload_store T false hp, removeEdge_size h⟩⟩

/-- An action on one child of a view. -/
theorem OnChild.seen {i : Nat} {c : ViewChild} {x : Payload} {y : Bool × Payload}
    (hs : Slot T a.viewOf i) (hp : T.payload (childPath i c) = some x) (h : OnChild env T i a c x y)
    (hold : ∀ z, T.cells (childPath i c) = some z → z.old = true) :
    (a.Harmless env T ∧ (if y.1 then putAt T i c y.2 else T) = T) ∨
      ¬ a.Harmless env T ∧ (if y.1 then putAt T i c y.2 else T).Fired := by
  have hfired : (putAt T i c y.2).Fired := fired_store (List.cons_ne_nil _ _) hp hold _
  cases h with
  | @addPrefixes view pid p prefixes m hn =>
    have hiff := changePrefixes_false (fun m pfx => add_refused env.behind m pfx p)
      m prefixes
    cases hc : (changePrefixes (fun m pfx => m.add env.behind pfx p) m prefixes).1 with
    | false =>
      refine Or.inl ⟨fun j q m' hs' hn' hm' => ?_, by simp [hc]⟩
      obtain rfl := hs.eq hs'
      obtain rfl := hn.eq hn'
      rw [hp] at hm'
      cases hm'
      exact hiff.1 hc
    | true =>
      refine Or.inr ⟨fun hh => ?_, by simpa [hc] using hfired⟩
      have := hiff.2 (hh i p m hs hn hp)
      exact absurd (hc.symm.trans this) (by simp)
  | @deletePrefixes view pid p prefixes m hn =>
    have hiff := changePrefixes_false (fun m pfx => remove_refused env.behind m pfx p)
      m prefixes
    cases hc : (changePrefixes (fun m pfx => m.remove env.behind pfx p) m prefixes).1 with
    | false =>
      refine Or.inl ⟨fun j q m' hs' hn' hm' => ?_, by simp [hc]⟩
      obtain rfl := hs.eq hs'
      obtain rfl := hn.eq hn'
      rw [hp] at hm'
      cases hm'
      exact hiff.1 hc
    | true =>
      refine Or.inr ⟨fun hh => ?_, by simpa [hc] using hfired⟩
      have := hiff.2 (hh i p m hs hn hp)
      exact absurd (hc.symm.trans this) (by simp)
  | _ => exact Or.inr ⟨id, hfired⟩

theorem Computes.fired {i : Nat} {v : View} {intra inter : PIDMatrix}
    (h : Computes env T i v intra inter)
    (hold : ∀ p x, p ≠ [] → T.cells p = some x → x.old = true) :
    (setPDistances env T i intra inter).Fired := by
  obtain ⟨x, hx, -⟩ := Option.map_eq_some_iff.1 h.view
  have hcells : (T.setChild env.copying (viewPath i) ViewChild.intraPDistances.idx
      (some ⟨.matrix intra, []⟩)).cells (viewPath i) =
        some (x.setChild ViewChild.intraPDistances.idx) := by
    rw [show (T.setChild _ _ _ _).cells (viewPath i) =
      (T.modify (viewPath i) _).cells (viewPath i) from ObjTree.graft_other _ _ not_suffix_self,
      ObjTree.modify_self, hx]
    rfl
  exact ObjTree.fired_setChild (List.cons_ne_nil _ _) hcells
    (by simpa using hold _ x (List.cons_ne_nil _ _) hx) _ _

theorem fired_putPids {i : Nat} {agg agg' : PIDAggregation} {r : PIDRouting}
    {link : Bool × PIDMatrix}
    (h : T.payload (childPath i .aggregation) = some (.aggregation agg))
    (hold : ∀ p x, p ≠ [] → T.cells p = some x → x.old = true) :
    (putPids T i agg' r link).Fired := by
  have hfired : (putAt T i .aggregation (.aggregation agg')).Fired :=
    fired_store (List.cons_ne_nil _ _) h (fun x => hold _ x (List.cons_ne_nil _ _)) _
  have hfired' := hfired.edit (childPath i .intraRouting) (Cell.edits_store (.routing r) true)
  unfold putPids
  split
  · exact hfired'.edit _ (Cell.edits_store _ _)
  · exact hfired'

/-- On a tree of old objects, an action that returns true either is harmless and changes nothing, or
leaves something to be seen. -/
theorem Does.seen (h : Does env T a T') (hold : ∀ p x, p ≠ [] → T.cells p = some x → x.old = true) :
    (a.Harmless env T ∧ T' = T) ∨ ¬ a.Harmless env T ∧ (T'.Fired ∨ NetLess T T') := by
  cases h with
  | base => exact Or.inl ⟨trivial, rfl⟩
  | propGet => exact Or.inl ⟨trivial, rfl⟩
  | net hp h => exact Or.inr (h.seen env hp fun x => hold _ x (List.cons_ne_nil _ _))
  | @viewAdd view i x views hx hp hi =>
    refine Or.inr ⟨id, Or.inl ?_⟩
    exact (ObjTree.fired_setChild (List.cons_ne_nil _ _) hx (hold _ x (List.cons_ne_nil _ _) hx) i
      _).edit _ (Cell.edits_store _ _)
  | @viewDelete view i views hp hi =>
    obtain ⟨x, hx, -⟩ := Option.map_eq_some_iff.1 hp
    refine Or.inr ⟨id, Or.inl ?_⟩
    exact (ObjTree.fired_setChild (List.cons_ne_nil _ _) hx (hold _ x (List.cons_ne_nil _ _) hx) i
      _).edit _ (Cell.edits_store _ _)
  | @update view i v intra inter hs h hv =>
    exact Or.inr ⟨id, Or.inl (h.fired hold)⟩
  | @addPID view pid pidObj i agg r link hs hp h =>
    refine Or.inr ⟨id, Or.inl ?_⟩
    exact fired_putPids hp.aggregation hold
  | @deletePID view pid pidObj i agg r r' link hs hn hp ha h =>
    refine Or.inr ⟨id, Or.inl ?_⟩
    exact fired_putPids hp.aggregation hold
  | @child _ i c x y hs hp h =>
    rcases h.seen hs hp fun z => hold _ z (List.cons_ne_nil _ _) with ⟨hh, heq⟩ | ⟨hh, hf⟩
    · exact Or.inl ⟨hh, heq⟩
    · exact Or.inr ⟨hh, Or.inl hf⟩
  | propSet hs hp h =>
    exact Or.inr ⟨id, Or.inl (fired_store (List.cons_ne_nil _ _) hp
      (fun x => hold _ x (List.cons_ne_nil _ _)) _)⟩

end Action

namespace Action

variable {env : Env} {T T' : ObjTree Payload} {a : Action}

theorem not_suffix_netPath {i j : Nat} {q : Path} : ¬ (i :: j :: q) <:+ netPath := by
  intro h
  simpa [netPath] using h.length_le

/-- Only the network actions touch the network state. -/
theorem net_payload {b : Bool} (h : if b then Does env T a T' else Fails env T a T') :
    T'.payload netPath = T.payload netPath ∨ ∃ net net' notify,
      T.payload netPath = some (.netState net) ∧ OnNet net a net' notify ∧
        T' = T.modify netPath (·.store (.netState net') notify) := by
  have hput : ∀ (T : ObjTree Payload) i c x, (putAt T i c x).payload netPath = T.payload netPath :=
    fun T i c x => ObjTree.payload_modify_ne T _ (by simp [netPath, childPath, viewPath, viewsPath])
  have hset : ∀ (T : ObjTree Payload) i intra inter,
      (setPDistances env T i intra inter).payload netPath = T.payload netPath := by
    intro T i intra inter
    rw [setPDistances, viewPath, ObjTree.payload_setChild_other _ _ _ _ not_suffix_netPath,
      ObjTree.payload_setChild_other _ _ _ _ not_suffix_netPath]
  cases b with
  | false =>
    cases h with
    | none => exact Or.inl rfl
    | update => exact Or.inl (hset _ _ _ _)
  | true =>
    cases h with
    | base | propGet => exact Or.inl rfl
    | net hp h => exact Or.inr ⟨_, _, _, hp, h, rfl⟩
    | viewAdd | viewDelete =>
      refine Or.inl ?_
      rw [ObjTree.payload_modify_ne _ _ (by decide),
        viewsPath, ObjTree.payload_setChild_other _ _ _ _ not_suffix_netPath]
    | update => exact Or.inl (hset _ _ _ _)
    | addPID | deletePID =>
      refine Or.inl ?_
      unfold putPids
      dsimp only
      split
      · rw [hput, hput, hput]
      · rw [hput, hput]
    | @child _ i c x y =>
      refine Or.inl ?_
      split
      · exact hput _ _ _ _
      · rfl
    | propSet =>
      exact Or.inl (ObjTree.payload_modify_ne T _ (by simp [netPath, viewPath, viewsPath]))

end Action

/-! ## Lists of actions -/

theorem Sim.fits {out : Outside P} {w : Work P} {T : ObjTree P} (hs : Sim out w T) : T.Fits := by
  intro p i x hx hi
  rw [hs.cells] at hx hi
  obtain ⟨⟨a, o⟩, ha, rfl⟩ := Option.map_eq_some_iff.1 hx
  obtain ⟨⟨b, ob⟩, hb⟩ := Option.isSome_iff_exists.1 (by simpa using hi)
  obtain ⟨y, hy, hyb⟩ := Option.bind_eq_some_iff.1 (Heap.find_eq_some.1 hb).1
  obtain ⟨hra, hoa⟩ := Heap.find_eq_some.1 ha
  cases hy.symm.trans hra
  obtain ⟨o', ho', hc⟩ := Heap.links_eq_some.1 hyb
  cases hoa.symm.trans ho'
  by_contra hlt
  rw [Obj.getChild, List.getElem?_eq_none (Nat.le_of_not_lt hlt)] at hc
  cases hc

namespace Server

variable {env : Env} {s s' : Server} {T T' : ObjTree Payload} {actions : List Action} {a : Action}

/-- The state with all locks: on it, actions run one after the other without a transaction. -/
def openTree (s : Server) : ObjTree Payload where
  cells p := (s.tree.cells p).map fun x => { x with locked := true }
  next := s.heap.length

/-- The action, run on the state, does not return true. -/
def Refused (env : Env) (s : Server) (a : Action) : Prop :=
  ∀ a' T, (a.commit env).run env.copying .directWrite s.openTree ≠ (.ok (some a'), T)

/-- All actions before the first one that is refused are harmless, and that one does not set the
matrices of a view. -/
def Traceless (env : Env) (s : Server) (actions : List Action) : Prop :=
  ∃ pre a rest, actions = pre ++ a :: rest ∧ (∀ b ∈ pre, b.Harmless env s.tree) ∧
    Refused env s a ∧ ¬ a.SetsMatrices env s.tree

theorem traceless_cons : Traceless env s (a :: actions) ↔
    (Refused env s a ∧ ¬ a.SetsMatrices env s.tree) ∨
      a.Harmless env s.tree ∧ Traceless env s actions := by
  constructor
  · rintro ⟨pre, b, rest, h, hpre, hb⟩
    cases pre with
    | nil =>
      cases h
      exact Or.inl hb
    | cons c pre =>
      obtain ⟨rfl, rfl⟩ := List.cons.inj h
      exact Or.inr ⟨hpre _ List.mem_cons_self, pre, b, rest, rfl,
        fun x hx => hpre x (List.mem_cons_of_mem _ hx), hb⟩
  · rintro (h | ⟨ha, pre, b, rest, rfl, hpre, hb⟩)
    · exact ⟨[], a, actions, rfl, by simp, h⟩
    · exact ⟨a :: pre, b, rest, rfl, by simpa [ha] using hpre, hb⟩

theorem tracked_beginTree (hi : Idle s) : (s.beginTree env).Tracked (s.beginTree env) := by
  have hcells : ∀ p x, p ≠ [] → (s.beginTree env).cells p = some x →
      x.old = true ∧ x.fired = false := by
    intro p x hp hx
    simp only [beginTree, if_neg hp] at hx
    obtain ⟨y, hy, rfl⟩ := Option.map_eq_some_iff.1 hx
    exact ⟨rfl, hi.unfired p y.1 y.2 hy⟩
  refine ⟨fun p x hx hl => ?_, fun p x hp hx _ => ⟨x, hx, ?_⟩, fun p i x hp hx _ => ?_,
    fun i x hx => (hcells [i] x (List.cons_ne_nil _ _) hx).1⟩
  · by_cases hp : p = []
    · subst hp
      cases hx
      rfl
    · exact (hcells p x hp hx).2
  · simp [(hcells p x hp hx).2]
  · obtain ⟨og, hg⟩ := hi.liveRoot
    have hs := sim_begin env hi .directWrite hg.get
    rw [hs.cells] at hx
    obtain ⟨z, hz, -⟩ := Option.map_eq_some_iff.1 hx
    obtain ⟨b, hb, -⟩ := Option.bind_eq_some_iff.1 (Heap.find_eq_some.1 hz).1
    obtain ⟨o, -, ho⟩ := hs.tree.find_eq hb
    have hcell := hs.cells_eq (p := p) ho
    exact ⟨_, hcell, (hcells p _ hp hcell).1⟩

theorem payload_beginTree {p : Path} (hp : p ≠ []) :
    (s.beginTree env).payload p = s.tree.payload p := by
  simp [ObjTree.payload, beginTree, hp]

/-- More locks than a transaction that has only asked for references. -/
theorem under_openTree (hi : Idle s) (h : (s.beginTree env).Same T) :
    T.Under s.openTree ∧ T.Fits ∧ s.openTree.Fits := by
  obtain ⟨og, hg⟩ := hi.liveRoot
  have hfits : (s.beginTree env).Fits := (sim_begin env hi .directWrite hg.get).fits
  have hroot : s.tree.cells [] = some (rootCell og.version) := by
    have hf : s.findLive [] = some (s.globalState, og) := Heap.find_eq_some.2 ⟨rfl, hg.get⟩
    simp [tree, hf, rootCell, hg.payload, hg.width, hg.unfired]
  have hcells : ∀ p, ((s.beginTree env).cells p = none ∧ s.openTree.cells p = none) ∨
      ∃ x y, (s.beginTree env).cells p = some x ∧ s.openTree.cells p = some y ∧
        y.payload = x.payload ∧ y.width = x.width ∧ y.locked = true := by
    intro p
    by_cases hp : p = []
    · subst hp
      exact Or.inr ⟨_, { rootCell og.version with locked := true }, rfl,
        by simp only [openTree, hroot, Option.map_some], rfl, rfl, rfl⟩
    · simp only [beginTree, if_neg hp, openTree]
      cases s.tree.cells p with
      | none => exact Or.inl ⟨rfl, rfl⟩
      | some x => exact Or.inr ⟨x, _, rfl, rfl, rfl, rfl, rfl⟩
  refine ⟨fun p => ?_, ?_, ?_⟩
  · rcases h p with ⟨hn, hn'⟩ | ⟨x, y, hx, hy, hxy⟩
    · rcases hcells p with ⟨-, ho⟩ | ⟨x, -, hx, -⟩
      · exact Or.inl ⟨hn', ho⟩
      · cases hn.symm.trans hx
    · rcases hcells p with ⟨hn, -⟩ | ⟨x', z, hx', hz, hp, hw, hl⟩
      · cases hn.symm.trans hx
      · cases hx'.symm.trans hx
        exact Or.inr ⟨y, z, hy, hz, .of_locked (by rw [hp, hxy]) (by rw [hw, hxy]) hl⟩
  · refine hfits.of_cells (fun p => ?_) fun p y hy => ?_
    · rcases h p with ⟨hn, hn'⟩ | ⟨x, y, hx, hy, -⟩
      · rw [hn, hn']
      · rw [hx, hy]
        rfl
    · exact ⟨_, h.cell hy, le_rfl⟩
  · refine hfits.of_cells (fun p => ?_) fun p y hy => ?_
    · rcases hcells p with ⟨hn, hn'⟩ | ⟨x, y, hx, hy, -⟩
      · rw [hn, hn']
      · rw [hx, hy]
        rfl
    · rcases hcells p with ⟨-, hn⟩ | ⟨x, z, hx, hz, -, hw, -⟩
      · cases hn.symm.trans hy
      · cases hz.symm.trans hy
        exact ⟨x, hx, hw.ge⟩

theorem refused_iff (hi : Idle s) (h : (s.beginTree env).Same T) {o : Outcome (Option Action)}
    (hr : (a.commit env).run env.copying .directWrite T = (o, T')) (hd : o ≠ .undefined) :
    Refused env s a ↔ ∀ a', o ≠ .ok (some a') := by
  obtain ⟨hunder, hf, hf'⟩ := under_openTree hi h
  have hsame := (Prog.run_under (c := env.copying) (t := .directWrite) .directWrite
    (a.commit env) hunder hf hf' (by simp) (by simp) (by rw [hr]; exact hd)).1
  rcases hrun : (a.commit env).run env.copying .directWrite s.openTree with ⟨o', T₁⟩
  rw [hr, hrun] at hsame
  obtain rfl : o' = o := hsame
  constructor
  · rintro href a' rfl
    exact href a' T₁ hrun
  · intro ho a' T₂ hrun'
    cases hrun.symm.trans hrun'
    exact ho a' rfl

/-- What has been left to be seen stays. -/
theorem seen_commit {T₀ : ObjTree Payload} {b : Bool} (ht : T₀.Tracked T)
    (h : T.Fired ∨ Action.NetLess T₀ T) (hr : Action.Ran env .directWrite T a b T')
    (hrun : ((a.commit env).run env.copying .directWrite T).2 = T') :
    T₀.Tracked T' ∧ (T'.Fired ∨ Action.NetLess T₀ T') := by
  have ht' : T₀.Tracked T' := hrun ▸ ht.run (a.commit env)
  refine ⟨ht', ?_⟩
  rcases h with h | ⟨net₀, net, hnet₀, hnet, hlt⟩
  · exact Or.inl (hrun ▸ h.run ht (a.commit env))
  · obtain ⟨T₂, hrefs, hd⟩ := hr
    have hnet₂ : T₂.payload netPath = some (.netState net) := by
      rw [← hnet]
      exact hrefs.payload_direct netPath
    rcases Action.net_payload hd with heq | ⟨net₁, net', notify, hp, hon, rfl⟩
    · exact Or.inr ⟨net₀, net, hnet₀, heq.trans hnet₂, hlt⟩
    · cases hnet₂.symm.trans hp
      have hold : ∀ x, T₂.cells netPath = some x → x.old = true := by
        intro x hx
        have hself : (T₂.modify netPath (·.store (.netState net') notify)).cells netPath =
            some (x.store (.netState net') notify) := by rw [ObjTree.modify_self, hx]; rfl
        simpa using ht'.top netIdx _ hself
      rcases (hon.seen env hnet₂ hold).2 with hf | ⟨n₁, n₂, hn₁, hn₂, hlt'⟩
      · exact Or.inl hf
      · cases hnet₂.symm.trans hn₁
        exact Or.inr ⟨net₀, n₂, hnet₀, hn₂, hlt'.trans hlt⟩

theorem seen_runActions {T₀ : ObjTree Payload} {b : Bool} (ht : T₀.Tracked T)
    (h : T.Fired ∨ Action.NetLess T₀ T)
    (hr : runActions env .directWrite actions T = (some b, T')) :
    T₀.Tracked T' ∧ (T'.Fired ∨ Action.NetLess T₀ T') := by
  induction actions generalizing T with
  | nil =>
    cases hr
    exact ⟨ht, h⟩
  | cons a actions ih =>
    have hpost := Action.commit_post env .directWrite a T
    rw [runActions] at hr
    rcases hrun : (a.commit env).run env.copying .directWrite T with ⟨o, T₁⟩
    rw [hrun] at hr
    cases o with
    | ok result =>
      cases result with
      | none =>
        cases hr
        exact seen_commit ht h (hpost.of_ok hrun) (by rw [hrun])
      | some a' =>
        obtain ⟨ht₁, h₁⟩ := seen_commit ht h (hpost.of_ok hrun) (by rw [hrun])
        exact ih ht₁ h₁ hr
    | error msg =>
      cases hr
      exact seen_commit ht h (hpost.of_error hrun) (by rw [hrun])
    | undefined => cases hr

/-- The trees that a transaction without changes reaches have the payloads of the state. -/
theorem same_payload (h : (s.beginTree env).Same T) {p : Path} (hp : p ≠ []) :
    T.payload p = s.tree.payload p := (h.payload p).trans (payload_beginTree hp)

theorem same_old (h : (s.beginTree env).Same T) (p : Path) (x : Cell Payload) (hp : p ≠ [])
    (hx : T.cells p = some x) : x.old = true := by
  have hx₀ := h.cell hx
  simp only [beginTree, if_neg hp] at hx₀
  obtain ⟨y, -, hy⟩ := Option.map_eq_some_iff.1 hx₀
  rw [Cell.mk.injEq] at hy
  exact hy.2.2.2.2.1.symm

/-- The action that fails. -/
theorem fails_seen (hi : Idle s) (hs : (s.beginTree env).Same T) (hd : Action.Fails env T a T')
    (ht' : (s.beginTree env).Tracked T') (href : Refused env s a) :
    ((s.beginTree env).Same T' ∧ Traceless env s (a :: actions)) ∨
      (s.beginTree env).Tracked T' ∧ (T'.Fired ∨ Action.NetLess (s.beginTree env) T') ∧
        ¬ Traceless env s (a :: actions) := by
  rw [traceless_cons]
  have hsets := Action.setsMatrices_congr env (fun p hp => same_payload hs hp) a
  cases hd with
  | none h =>
    refine Or.inl ⟨hs, Or.inl ⟨href, fun hm => ?_⟩⟩
    exact h (under_openTree hi hs).2.1 (hsets.2 hm)
  | update hslot hc hv =>
    refine Or.inr ⟨ht', Or.inl (hc.fired (same_old hs)), ?_⟩
    rintro (⟨-, hm⟩ | ⟨hh, -⟩)
    · exact hm (hsets.1 ⟨_, _, _, _, _, rfl, hslot, hc, hv⟩)
    · exact hh

/-- A failed list of actions either has left the tree as it was, or something to be seen. -/
theorem runActions_seen (hi : Idle s) (hs : (s.beginTree env).Same T)
    (ht : (s.beginTree env).Tracked T)
    (hr : runActions env .directWrite actions T = (some false, T')) :
    ((s.beginTree env).Same T' ∧ Traceless env s actions) ∨
      (s.beginTree env).Tracked T' ∧ (T'.Fired ∨ Action.NetLess (s.beginTree env) T') ∧
        ¬ Traceless env s actions := by
  induction actions generalizing T with
  | nil => cases hr
  | cons a actions ih =>
    have hpost := Action.commit_post env .directWrite a T
    rw [runActions] at hr
    rcases hrun : (a.commit env).run env.copying .directWrite T with ⟨o, T₁⟩
    rw [hrun] at hr
    have ht₁ : (s.beginTree env).Tracked T₁ := by
      have := ht.run (c := env.copying) (a.commit env)
      rwa [hrun] at this
    cases o with
    | ok result =>
      cases result with
      | none =>
        cases hr
        have href : Refused env s a := (refused_iff hi hs hrun (by simp)).2 (by simp)
        obtain ⟨T₂, hrefs, hd⟩ := hpost.of_ok hrun
        exact fails_seen hi (hs.refs ht hrefs) hd ht₁ href
      | some a' =>
        have hnot : ¬ Refused env s a := by
          rw [refused_iff hi hs hrun (by simp)]
          simp
        obtain ⟨T₂, hrefs, hd⟩ := hpost.of_ok hrun
        have hs₂ : (s.beginTree env).Same T₂ := hs.refs ht hrefs
        have hharm := Action.harmless_congr env (fun p hp => same_payload hs₂ hp) a
        rw [traceless_cons]
        rcases Action.Does.seen hd (same_old hs₂) with ⟨hh, rfl⟩ | ⟨hh, hseen⟩
        · simp only [hnot, false_and, false_or, hharm.1 hh, true_and]
          exact ih hs₂ ht₁ hr
        · have hseen' : T₁.Fired ∨ Action.NetLess (s.beginTree env) T₁ := by
            rcases hseen with hf | ⟨net₀, net, hnet₀, hnet, hlt⟩
            · exact Or.inl hf
            · exact Or.inr ⟨net₀, net, (hs₂.payload netPath).symm.trans hnet₀, hnet, hlt⟩
          obtain ⟨ht', hend⟩ := seen_runActions ht₁ hseen' hr
          refine Or.inr ⟨ht', hend, ?_⟩
          simp [hnot, mt hharm.2 hh]
    | error msg =>
      cases hr
      have href : Refused env s a := (refused_iff hi hs hrun (by simp)).2 (by simp)
      obtain ⟨T₂, hrefs, hd⟩ := hpost.of_error hrun
      exact fails_seen hi (hs.refs ht hrefs) hd ht₁ href
    | undefined => cases hr

/-! ## What readers see -/

/-- What a reader sees of the object at a path: its getters, its child slots and its version. -/
def readable (s : Server) (p : Path) : Option (Payload × Nat × Nat) :=
  (s.findLive p).map fun x => (x.2.payload.getters, x.2.children.length, x.2.version)

theorem readable_eq_tree (s : Server) (p : Path) :
    s.readable p = (s.tree.cells p).map fun x => (x.payload.getters, x.width, x.version) := by
  rw [tree, Option.map_map, readable]
  rfl

theorem readable_after {v : Nat} (h : s.tree = after T v) {p : Path} (hp : p ≠ []) :
    s.readable p = (T.cells p).map fun x => (x.payload.getters, x.width, x.version) := by
  rw [readable_eq_tree, h]
  simp only [after, ObjTree.withRoot, if_neg hp, ObjTree.settle, Option.map_map]
  rfl

theorem readable_begin (env : Env) {p : Path} (hp : p ≠ []) :
    s.readable p =
      ((s.beginTree env).cells p).map fun x => (x.payload.getters, x.width, x.version) := by
  rw [readable_eq_tree]
  simp [beginTree, hp]

theorem readable_root {og : Obj Payload} (hg : LiveRoot s og) :
    s.readable [] = some (.globalState, 2, og.version) := by
  have hf : s.findLive [] = some (s.globalState, og) := Heap.find_eq_some.2 ⟨rfl, hg.get⟩
  simp [readable, hf, hg.payload, hg.width, Payload.getters]

/-- A failed transaction leaves nothing to be seen exactly if it is copy-on-write, or all its actions
before the one that fails are harmless and that one does not set matrices. It is always over. -/
theorem failed_transaction_leaves_no_trace (env : Env) (s s' : Server) (clock : Nat → Nat)
    (type : TxnType) (rng : List Nat) (actions : List Action) (hi : Idle s)
    (h : s.transact env clock type rng actions = some (.ok false, s')) :
    ((∀ p, s'.readable p = s.readable p) ∧ s'.admin = .clear) ↔
      type = .copyOnWrite ∨ Traceless env s actions := by
  obtain ⟨og, hg⟩ := hi.liveRoot
  obtain ⟨T, hrun, hclear, -, hdirect⟩ := transact_failed hi hg h
  cases type with
  | copyOnWrite =>
    refine iff_of_true ⟨fun p => ?_, hclear⟩ (Or.inl rfl)
    have hlive := (quiet_transact hi.tree hi.clear h).findLive hi.tree p
    have hmap := congrArg (Option.map fun x : Nat × Payload × List (Option Nat) × Nat × Bool =>
      (x.2.1, x.2.2.1.length, x.2.2.2.1)) hlive
    rw [Option.map_map, Option.map_map] at hmap
    exact hmap
  | directWrite =>
    obtain ⟨hidle, htree⟩ := hdirect rfl
    simp only [hclear, and_true, reduceCtorEq, false_or]
    rcases runActions_seen hi (.refl _) (tracked_beginTree hi) hrun with
      ⟨hsame, htl⟩ | ⟨htr, hseen, htl⟩
    · refine iff_of_true (fun p => ?_) htl
      by_cases hp : p = []
      · subst hp
        rw [readable_root hg, readable_eq_tree, htree]
        rfl
      · rw [readable_after htree hp, readable_begin env hp]
        rcases hsame p with ⟨hn, hn'⟩ | ⟨x, y, hx, hy, hxy⟩
        · rw [hn, hn']
        · rw [hx, hy, hxy]
          rfl
    · refine iff_of_false (fun hall => ?_) htl
      rcases hseen with hf | ⟨net₀, net, hnet₀, hnet, hlt⟩
      · obtain ⟨p, x₀, x, hp, hx₀, hx, hne⟩ := htr.version_ne hf
        have heq := hall p
        rw [readable_after htree hp, readable_begin env hp, hx, hx₀] at heq
        simp only [Option.map_some, Option.some.injEq, Prod.mk.injEq] at heq
        exact hne heq.2.2
      · have heq := hall netPath
        have hp : netPath ≠ [] := List.cons_ne_nil _ _
        rw [readable_after htree hp, readable_begin env hp] at heq
        obtain ⟨x₀, hx₀, hp₀⟩ := Option.map_eq_some_iff.1 hnet₀
        obtain ⟨x, hx, hp⟩ := Option.map_eq_some_iff.1 hnet
        rw [hx, hx₀] at heq
        simp only [Option.map_some, Option.some.injEq, Prod.mk.injEq, hp, hp₀,
          Payload.getters] at heq
        cases heq.1
        exact hlt.false

/-- A direct transaction that fails at its second action, after one that does nothing. -/
theorem failed_transaction_leaves_no_trace_base :
    ∃ s', transact sampleEnv (fun _ => 0) (initial sampleEnv) .directWrite [1]
        [.base, .viewDelete "isp"] = some (.ok false, s') ∧
      (∀ p, s'.readable p = (initial sampleEnv).readable p) ∧ s'.admin = .clear := by
  have hfail : ∃ s', transact sampleEnv (fun _ => 0) (initial sampleEnv) .directWrite [1]
      [.base, .viewDelete "isp"] = some (.ok false, s') := ⟨_, rfl⟩
  obtain ⟨s', hs'⟩ := hfail
  have href : Refused sampleEnv (initial sampleEnv) (.viewDelete "isp") :=
    (refused_iff (idle_initial sampleEnv) (.refl _) (o := .ok none) rfl (by simp)).2 (by simp)
  have htl : Traceless sampleEnv (initial sampleEnv) [.base, .viewDelete "isp"] := by
    refine ⟨[.base], _, [], rfl, ?_, href, ?_⟩
    · simp [Action.Harmless]
    · rintro ⟨view, -, -, -, -, ha, -⟩
      cases ha
  exact ⟨s', hs', (failed_transaction_leaves_no_trace _ _ _ _ _ _ _ (idle_initial sampleEnv) hs').2
    (Or.inr htl)⟩

/-- A direct transaction that adds a view and then fails leaves the view. -/
theorem failed_transaction_leaves_view :
    ∃ s s', init sampleEnv (fun _ => 0) = some s ∧
      s.transact sampleEnv (fun _ => 0) .directWrite [1] [.viewAdd "isp", .viewDelete "other"] =
        some (.ok false, s') ∧
      s.readable (viewPath 1) = none ∧ s'.readable (viewPath 1) = some (.view (.new "isp"), 6, 0) := by
  refine ⟨_, _, rfl, rfl, ?_, ?_⟩
  · rfl
  · rfl

end Server

end Alto
