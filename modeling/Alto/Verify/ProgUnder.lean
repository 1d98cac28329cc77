import Alto.Verify.ObjTree

/-!
# Programs with more locks

Locks decide whether a program has a result, never which one: on a tree with the same payloads and
at least the same locks, a program does the same (`Prog.run_under`). The same holds between the two
kinds of transactions as long as every copy that is made equals the object it is made of.
-/

namespace Alto

variable {P α : Type} {c : Copying P} {t t₁ : TxnType} {T T₁ T' : ObjTree P}

/-! ## Child slots -/

/-- Every child stands in one of the slots of its parent. -/
def ObjTree.Fits (T : ObjTree P) : Prop :=
  ∀ p i x, T.cells p = some x → (T.cells (i :: p)).isSome → i < x.width

namespace ObjTree.Fits

theorem of_cells {T' : ObjTree P} (h : T.Fits)
    (hc : ∀ p, (T'.cells p).isSome = (T.cells p).isSome)
    (hw : ∀ p x, T'.cells p = some x → ∃ y, T.cells p = some y ∧ y.width ≤ x.width) : T'.Fits := by
  intro p i x hx hi
  obtain ⟨y, hy, hyx⟩ := hw p x hx
  exact (h p i y hy (hc _ ▸ hi)).trans_le hyx

theorem modify (h : T.Fits) (p : Path) {f : Cell P → Cell P} (hf : ∀ x, x.width ≤ (f x).width) :
    (T.modify p f).Fits := by
  refine h.of_cells (fun r => ?_) fun r x hx => ?_
  · by_cases hr : r = p
    · subst hr
      simp
    · rw [modify_ne T f hr]
  · by_cases hr : r = p
    · subst hr
      rw [modify_self] at hx
      obtain ⟨y, hy, rfl⟩ := Option.map_eq_some_iff.1 hx
      exact ⟨y, hy, hf y⟩
    · rw [modify_ne T f hr] at hx
      exact ⟨x, hx, le_rfl⟩

theorem copyAt (h : T.Fits) {q : Path} {i : Nat} {x : Cell P} (hx : T.cells (i :: q) = some x) :
    (T.copyAt c q i x).Fits := by
  refine Fits.modify ?_ q fun y => by simp
  refine h.of_cells (fun r => ?_) fun r y hy => ?_
  · dsimp only
    split
    · next hr => rw [hr, hx]; rfl
    · rfl
  · dsimp only at hy
    split at hy
    · next hr =>
      cases hy
      exact ⟨x, hr ▸ hx, le_rfl⟩
    · exact ⟨y, hy, le_rfl⟩

theorem setChild (h : T.Fits) (p : Path) (i : Nat) (value : Option (NewObj P)) :
    (T.setChild c p i value).Fits := by
  have hm : (T.modify p (·.setChild i)).Fits := h.modify p fun x => by simp
  intro r j x hx hj
  by_cases hr : (i :: p) <:+ r
  · obtain ⟨s, rfl⟩ := hr
    cases value with
    | none =>
      rw [ObjTree.setChild, graft_below] at hx
      cases hx
    | some y =>
      rw [ObjTree.setChild, graft_below] at hx
      rw [ObjTree.setChild, ← List.cons_append, graft_below] at hj
      match s with
      | [] =>
        cases hx
        simpa [newCells] using hj
      | [_] | _ :: _ :: _ => simp [newCells] at hj
  · rw [ObjTree.setChild, graft_other _ _ hr] at hx
    by_cases hjr : j :: r = i :: p
    · obtain ⟨rfl, rfl⟩ := List.cons.inj hjr
      rw [modify_self] at hx
      obtain ⟨y, -, rfl⟩ := Option.map_eq_some_iff.1 hx
      simp
    · have hjr' : ¬ (i :: p) <:+ j :: r := by
        rw [List.suffix_cons_iff]
        exact fun h' => h'.elim (fun he => hjr he.symm) hr
      rw [ObjTree.setChild, graft_other _ _ hjr'] at hj
      exact hm r j x hx hj

theorem run {α : Type} (c : Copying P) (type : TxnType) (h : T.Fits) (prog : Prog P α) :
    (prog.run c type T).2.Fits :=
  Prog.run_invariant (I := ObjTree.Fits) (fun _ _ _ _ h _ _ _ => h.modify _ fun _ => le_rfl)
    (fun _ _ _ _ _ h _ hi _ _ _ _ => h.copyAt hi)
    (fun _ _ _ _ v notify h _ _ => h.modify _ fun x => by simp)
    (fun _ _ _ _ _ _ h _ _ => h.setChild _ _ _) prog h

end ObjTree.Fits

/-! ## More locks -/

/-- The same object, with at least the same locks. -/
structure Cell.Under (x y : Cell P) : Prop where
  payload : y.payload = x.payload
  width : y.width = x.width
  locked : x.locked = true → y.locked = true
  readable : x.readable = true → y.readable = true
  fresh : y.readable = true → y.locked = true ∨ x.readable = true

namespace Cell.Under

variable {x y z : Cell P}

theorem refl (x : Cell P) : x.Under x := ⟨rfl, rfl, id, id, Or.inr⟩

theorem trans (h : x.Under y) (h' : y.Under z) : x.Under z where
  payload := h'.payload.trans h.payload
  width := h'.width.trans h.width
  locked hx := h'.locked (h.locked hx)
  readable hx := h'.readable (h.readable hx)
  fresh hz := (h'.fresh hz).elim Or.inl fun hy => (h.fresh hy).imp_left h'.locked

/-- Two locked objects. -/
theorem of_locked (hp : y.payload = x.payload) (hw : y.width = x.width) (hy : y.locked = true) :
    x.Under y :=
  ⟨hp, hw, fun _ => hy, fun _ => by simp [Cell.readable, hy], fun _ => Or.inl hy⟩

/-- Edits that keep the locks. -/
theorem edit {x' y' : Cell P} (h : x.Under y) (hp : y'.payload = x'.payload)
    (hw : y'.width = x'.width) (hxl : x'.locked = x.locked) (hxo : x'.old = x.old)
    (hyl : y'.locked = y.locked) (hyo : y'.old = y.old) : x'.Under y' := by
  refine ⟨hp, hw, ?_, ?_, ?_⟩
  · rw [hxl, hyl]
    exact h.locked
  · rw [Cell.readable, Cell.readable, hxl, hxo, hyl, hyo]
    exact h.readable
  · rw [Cell.readable, Cell.readable, hxl, hxo, hyl, hyo]
    exact h.fresh

theorem setChild (h : x.Under y) (i : Nat) : (x.setChild i).Under (y.setChild i) :=
  h.edit (by simp [h.payload]) (by simp [h.width]) (by simp) (by simp) (by simp) (by simp)

theorem store (h : x.Under y) (v : P) (notify : Bool) :
    (x.store v notify).Under (y.store v notify) :=
  h.edit (by simp) (by simp [h.width]) (by simp) (by simp) (by simp) (by simp)

end Cell.Under

/-- The same tree, with at least the same locks. -/
def ObjTree.Under (T T₁ : ObjTree P) : Prop :=
  ∀ p, (T.cells p = none ∧ T₁.cells p = none) ∨
    ∃ x y, T.cells p = some x ∧ T₁.cells p = some y ∧ x.Under y

namespace ObjTree.Under

theorem cell (h : T.Under T₁) {p : Path} {x : Cell P} (hx : T.cells p = some x) :
    ∃ y, T₁.cells p = some y ∧ x.Under y := by
  rcases h p with ⟨hn, -⟩ | ⟨x', y, hx', hy, hxy⟩
  · cases hn.symm.trans hx
  · obtain rfl : x = x' := Option.some.inj (hx.symm.trans hx')
    exact ⟨y, hy, hxy⟩

theorem isSome (h : T.Under T₁) (p : Path) : (T₁.cells p).isSome = (T.cells p).isSome := by
  rcases h p with ⟨hn, hn'⟩ | ⟨x, y, hx, hy, -⟩
  · rw [hn, hn']
  · rw [hx, hy]
    rfl

theorem slots (h : T.Under T₁) {p : Path} {x y : Cell P} (hxy : x.Under y) :
    T₁.slots p y = T.slots p x := by
  simp only [ObjTree.slots, hxy.width, h.isSome]

/-- Edits of one cell on both sides. -/
theorem modify (h : T.Under T₁) {p : Path} {f g : Cell P → Cell P}
    (hfg : ∀ x y, T.cells p = some x → T₁.cells p = some y → x.Under y → (f x).Under (g y)) :
    (T.modify p f).Under (T₁.modify p g) := by
  intro r
  by_cases hr : r = p
  · subst hr
    rw [modify_self, modify_self]
    rcases h r with ⟨hn, hn'⟩ | ⟨x, y, hx, hy, hxy⟩
    · exact Or.inl ⟨by rw [hn]; rfl, by rw [hn']; rfl⟩
    · exact Or.inr ⟨f x, g y, by rw [hx]; rfl, by rw [hy]; rfl, hfg x y hx hy hxy⟩
  · rw [modify_ne T f hr, modify_ne T₁ g hr]
    exact h r

theorem graft (h : T.Under T₁) {p : Path} {new new₁ : Path → Option (Cell P)}
    (hnew : ∀ s, (new s = none ∧ new₁ s = none) ∨
      ∃ x y, new s = some x ∧ new₁ s = some y ∧ x.Under y) :
    (T.graft p new).Under (T₁.graft p new₁) := by
  intro r
  by_cases hr : p <:+ r
  · obtain ⟨s, rfl⟩ := hr
    rw [graft_below, graft_below]
    exact hnew s
  · rw [graft_other T new hr, graft_other T₁ new₁ hr]
    exact h r

theorem newCells (n n₁ : Nat) (x : NewObj P) (s : Path) :
    (ObjTree.newCells c n x s = none ∧ ObjTree.newCells c n₁ x s = none) ∨
      ∃ y z, ObjTree.newCells c n x s = some y ∧ ObjTree.newCells c n₁ x s = some z ∧
        y.Under z := by
  match s with
  | [] => exact Or.inr ⟨_, _, rfl, rfl, rfl, rfl, id, id, Or.inr⟩
  | [j] =>
    cases hj : x.leaves[j]? with
    | none => exact Or.inl ⟨by simp [ObjTree.newCells, hj], by simp [ObjTree.newCells, hj]⟩
    | some y =>
      refine Or.inr ⟨⟨y, 0, c.junk (n + 1 + j), false, false, false⟩,
        ⟨y, 0, c.junk (n₁ + 1 + j), false, false, false⟩, ?_, ?_, rfl, rfl, id, id, Or.inr⟩
      · simp [ObjTree.newCells, hj]
      · simp [ObjTree.newCells, hj]
  | _ :: _ :: _ => exact Or.inl ⟨rfl, rfl⟩

theorem setChild (h : T.Under T₁) (p : Path) (i : Nat) (value : Option (NewObj P)) :
    (T.setChild c p i value).Under (T₁.setChild c p i value) := by
  have hm := h.modify (p := p) (f := (·.setChild i)) (g := (·.setChild i))
    fun x y _ _ hxy => hxy.setChild i
  refine hm.graft (p := i :: p) fun s => ?_
  cases value with
  | none => exact Or.inl ⟨rfl, rfl⟩
  | some x => exact newCells T.next T₁.next x s

end ObjTree.Under

/-- `T'` is `T` with a write lock on the object `x` at a path. -/
structure ObjTree.Asked (T : ObjTree P) (p : Path) (x : Cell P) (T' : ObjTree P) : Prop where
  self : ∃ z, T'.cells p = some z ∧ z.payload = x.payload ∧ z.width = x.width ∧ z.locked = true
  other : ∀ r, r ≠ p → (T.cells r = none ∧ T'.cells r = none) ∨
    ∃ y z, T.cells r = some y ∧ T'.cells r = some z ∧ y.Under z ∧ z.Under y

namespace ObjTree

variable {q : Path} {i : Nat} {x : Cell P}

theorem Asked.same (hx : T.cells (i :: q) = some x) (hl : x.locked = true) :
    T.Asked (i :: q) x T := by
  refine ⟨⟨x, hx, rfl, rfl, hl⟩, fun r _ => ?_⟩
  cases hr : T.cells r with
  | none => exact Or.inl ⟨rfl, rfl⟩
  | some y => exact Or.inr ⟨y, y, rfl, rfl, .refl y, .refl y⟩

theorem Asked.lock (hx : T.cells (i :: q) = some x) :
    T.Asked (i :: q) x (T.modify (i :: q) Cell.lock) := by
  refine ⟨⟨x.lock, by rw [modify_self, hx]; rfl, rfl, rfl, rfl⟩, fun r hr => ?_⟩
  rw [modify_ne T _ hr]
  cases hr : T.cells r with
  | none => exact Or.inl ⟨rfl, rfl⟩
  | some y => exact Or.inr ⟨y, y, rfl, rfl, .refl y, .refl y⟩

theorem Asked.copyAt (hf : T.Fits) (hx : T.cells (i :: q) = some x)
    (hc : c.copyOf x.payload = x.payload) : T.Asked (i :: q) x (T.copyAt c q i x) := by
  refine ⟨⟨⟨c.copyOf x.payload, x.width, c.junk T.next, false, false, true⟩, ?_, hc, rfl, rfl⟩,
    fun r hr => ?_⟩
  · rw [ObjTree.copyAt, modify_ne _ _ (List.cons_ne_self i q)]
    simp
  · have hcells : (T.copyAt c q i x).cells r =
        if r = q then (T.cells r).map (·.setChild i) else T.cells r := by
      simp [ObjTree.copyAt, ObjTree.modify, hr]
    rw [hcells]
    cases hy : T.cells r with
    | none => exact Or.inl ⟨rfl, by split <;> rfl⟩
    | some y =>
      refine Or.inr ?_
      split
      · next hrq =>
        subst hrq
        -- the copy takes a slot that is there
        have hwidth : (y.setChild i).width = y.width := by
          have := hf r i y hy (by rw [hx]; rfl)
          rw [Cell.setChild_width]
          omega
        have h := Cell.Under.refl y
        exact ⟨y, y.setChild i, rfl, rfl,
          h.edit (by simp) hwidth rfl rfl (by simp) (by simp),
          h.edit (by simp) hwidth.symm (by simp) (by simp) rfl rfl⟩
      · exact ⟨y, y, rfl, rfl, .refl y, .refl y⟩

theorem Under.asked {T₁' : ObjTree P} {y : Cell P} (h : T.Under T₁) (hxy : x.Under y)
    (ha : T.Asked (i :: q) x T') (ha₁ : T₁.Asked (i :: q) y T₁') : T'.Under T₁' := by
  intro r
  by_cases hr : r = i :: q
  · subst hr
    obtain ⟨z, hz, hp, hw, -⟩ := ha.self
    obtain ⟨z₁, hz₁, hp₁, hw₁, hl₁⟩ := ha₁.self
    exact Or.inr ⟨z, z₁, hz, hz₁, .of_locked (hp₁.trans (hxy.payload.trans hp.symm))
      (hw₁.trans (hxy.width.trans hw.symm)) hl₁⟩
  · rcases h r with ⟨hn, hn₁⟩ | ⟨u, v, hu, hv, huv⟩
    · rcases ha.other r hr with ⟨-, hn'⟩ | ⟨y, -, hy, -⟩
      · rcases ha₁.other r hr with ⟨-, hn₁'⟩ | ⟨y, -, hy, -⟩
        · exact Or.inl ⟨hn', hn₁'⟩
        · cases hn₁.symm.trans hy
      · cases hn.symm.trans hy
    · rcases ha.other r hr with ⟨hn, -⟩ | ⟨y, z, hy, hz, -, hzy⟩
      · cases hn.symm.trans hu
      · rcases ha₁.other r hr with ⟨hn, -⟩ | ⟨y₁, z₁, hy₁, hz₁, hyz₁, -⟩
        · cases hn.symm.trans hv
        · obtain rfl := Option.some.inj (hy.symm.trans hu)
          obtain rfl := Option.some.inj (hy₁.symm.trans hv)
          exact Or.inr ⟨z, z₁, hz, hz₁, (hzy.trans huv).trans hyz₁⟩

theorem write_asked (hf : T.Fits) {u : Cell P} (hu : T.cells q = some u) (hul : u.locked = true)
    (hx : T.cells (i :: q) = some x)
    (hc : t = .copyOnWrite → x.locked = false → x.old = true → c.copyOf x.payload = x.payload) :
    ∃ T', T.write c t q i = some T' ∧ T.Asked (i :: q) x T' := by
  rw [write, hu, hx]
  simp only [hul, if_true]
  refine ⟨_, rfl, ?_⟩
  split
  · next hl => exact .same hx hl
  · next hl =>
    split
    · next ho => exact .copyAt hf hx (hc ho.1 (by simpa using hl) ho.2)
    · exact .lock hx

end ObjTree

namespace Prog

/-- `Q` holds of every object older than the transaction when the program first asks for it for
writing: in a copy-on-write transaction, of every object that is copied. -/
def Copies (c : Copying P) (type : TxnType) (Q : P → Prop) : Prog P α → ObjTree P → Prop
  | ret _, _ | throw _, _ | undef, _ => True
  | read q i k, T => ∀ T', T.read q i = some T' → k.Copies c type Q T'
  | write q i k, T =>
    (∀ x, T.cells (i :: q) = some x → x.locked = false → x.old = true → Q x.payload) ∧
      ∀ T', T.write c type q i = some T' → k.Copies c type Q T'
  | load p k, T => ∀ x, T.load p = some x → (k x.payload).Copies c type Q T
  | slots p k, T => ∀ x, T.load p = some x → (k (T.slots p x)).Copies c type Q T
  | store q i x notify k, T =>
    ∀ T', T.store (i :: q) x notify = some T' → k.Copies c type Q T'
  | setChild q j i value k, T =>
    ∀ T', T.setChild? c (j :: q) i value = some T' → k.Copies c type Q T'

/-- Copies lose nothing. -/
def Lossless (c : Copying P) (x : P) : Prop := c.copyOf x = x

end Prog

namespace ObjTree

variable {q : Path} {i j : Nat}

/-! ## Calls -/

theorem read_eq_some : T.read q i = some T' ↔ ∃ u x, T.cells q = some u ∧ u.readable = true ∧
    T.cells (i :: q) = some x ∧ T' = if x.readable then T else T.modify (i :: q) Cell.lock := by
  unfold read
  constructor
  · intro h
    split at h
    · next u x hu hx =>
      split at h
      · next hr =>
        cases h
        exact ⟨u, x, hu, hr, hx, rfl⟩
      · cases h
    · cases h
  · rintro ⟨u, x, hu, hr, hx, rfl⟩
    simp [hu, hx, hr]

theorem write_eq_some (h : T.write c t q i = some T') : ∃ u x, T.cells q = some u ∧
    u.locked = true ∧ T.cells (i :: q) = some x := by
  unfold write at h
  split at h
  · next u x hu hx =>
    split at h
    · next hl => exact ⟨u, x, hu, hl, hx⟩
    · cases h
  · cases h

theorem store_eq_some {p : Path} {v : P} {notify : Bool} :
    T.store p v notify = some T' ↔
      ∃ x, T.cells p = some x ∧ x.locked = true ∧ T' = T.modify p (·.store v notify) := by
  unfold store
  constructor
  · intro h
    split at h
    · next x hx =>
      split at h
      · next hl =>
        cases h
        exact ⟨x, hx, hl, rfl⟩
      · cases h
    · cases h
  · rintro ⟨x, hx, hl, rfl⟩
    simp [hx, hl]

theorem setChild?_eq_some {p : Path} {value : Option (NewObj P)} :
    T.setChild? c p i value = some T' ↔
      ∃ x, T.cells p = some x ∧ x.locked = true ∧ T' = T.setChild c p i value := by
  unfold setChild?
  constructor
  · intro h
    split at h
    · next x hx =>
      split at h
      · next hl =>
        cases h
        exact ⟨x, hx, hl, rfl⟩
      · cases h
    · cases h
  · rintro ⟨x, hx, hl, rfl⟩
    simp [hx, hl]

theorem load_eq_some {p : Path} {x : Cell P} :
    T.load p = some x ↔ T.cells p = some x ∧ x.readable = true := by
  rw [load, Option.filter_eq_some_iff]

namespace Fits

theorem read (h : T.Fits) (hr : T.read q i = some T') : T'.Fits := by
  obtain ⟨-, x, -, -, -, rfl⟩ := read_eq_some.1 hr
  split
  · exact h
  · exact h.modify _ fun _ => le_rfl

theorem write (h : T.Fits) (hw : T.write c t q i = some T') : T'.Fits := by
  have := h.run c t (.write q i (.ret ()))
  rwa [Prog.run, hw] at this

theorem store (h : T.Fits) {p : Path} {v : P} {notify : Bool} (hs : T.store p v notify = some T') :
    T'.Fits := by
  obtain ⟨x, -, -, rfl⟩ := store_eq_some.1 hs
  exact h.modify _ fun x => by simp

theorem setChild? (h : T.Fits) {p : Path} {value : Option (NewObj P)}
    (hs : T.setChild? c p i value = some T') : T'.Fits := by
  obtain ⟨x, -, -, rfl⟩ := setChild?_eq_some.1 hs
  exact h.setChild p i value

end Fits

namespace Under

theorem read (h : T.Under T₁) (hr : T.read q i = some T') :
    ∃ T₁', T₁.read q i = some T₁' ∧ T'.Under T₁' := by
  obtain ⟨u, x, hu, hur, hx, rfl⟩ := read_eq_some.1 hr
  obtain ⟨v, hv, huv⟩ := h.cell hu
  obtain ⟨y, hy, hxy⟩ := h.cell hx
  refine ⟨_, read_eq_some.2 ⟨v, y, hv, huv.readable hur, hy, rfl⟩, ?_⟩
  split
  · next hxr =>
    rw [if_pos (hxy.readable hxr)]
    exact h
  · next hxr =>
    split
    · next hyr => exact h.asked hxy (.lock hx) (.same hy ((hxy.fresh hyr).resolve_right hxr))
    · exact h.asked hxy (.lock hx) (.lock hy)

theorem write (t₁ : TxnType) (h : T.Under T₁) (hf : T.Fits) (hf₁ : T₁.Fits) (hw : T.write c t q i = some T')
    (hc : t = .copyOnWrite → ∀ x, T.cells (i :: q) = some x → x.locked = false → x.old = true →
      Prog.Lossless c x.payload)
    (hc₁ : t₁ = .copyOnWrite → ∀ x, T₁.cells (i :: q) = some x → x.locked = false →
      x.old = true → Prog.Lossless c x.payload) :
    ∃ T₁', T₁.write c t₁ q i = some T₁' ∧ T'.Under T₁' := by
  obtain ⟨u, x, hu, hul, hx⟩ := write_eq_some hw
  obtain ⟨v, hv, huv⟩ := h.cell hu
  obtain ⟨y, hy, hxy⟩ := h.cell hx
  obtain ⟨T'', hT'', ha⟩ := write_asked hf hu hul hx fun ht => hc ht x hx
  obtain ⟨T₁', hT₁', ha₁⟩ := write_asked hf₁ hv (huv.locked hul) hy fun ht => hc₁ ht y hy
  obtain rfl := Option.some.inj (hw.symm.trans hT'')
  exact ⟨T₁', hT₁', h.asked hxy ha ha₁⟩

theorem load (h : T.Under T₁) {p : Path} {x : Cell P} (hl : T.load p = some x) :
    ∃ y, T₁.load p = some y ∧ x.Under y := by
  obtain ⟨hx, hr⟩ := load_eq_some.1 hl
  obtain ⟨y, hy, hxy⟩ := h.cell hx
  exact ⟨y, load_eq_some.2 ⟨hy, hxy.readable hr⟩, hxy⟩

theorem store (h : T.Under T₁) {p : Path} {v : P} {notify : Bool}
    (hs : T.store p v notify = some T') :
    ∃ T₁', T₁.store p v notify = some T₁' ∧ T'.Under T₁' := by
  obtain ⟨x, hx, hl, rfl⟩ := store_eq_some.1 hs
  obtain ⟨y, hy, hxy⟩ := h.cell hx
  exact ⟨_, store_eq_some.2 ⟨y, hy, hxy.locked hl, rfl⟩,
    h.modify fun x y _ _ hxy => hxy.store v notify⟩

theorem setChild? (h : T.Under T₁) {p : Path} {value : Option (NewObj P)}
    (hs : T.setChild? c p i value = some T') :
    ∃ T₁', T₁.setChild? c p i value = some T₁' ∧ T'.Under T₁' := by
  obtain ⟨x, hx, hl, rfl⟩ := setChild?_eq_some.1 hs
  obtain ⟨y, hy, hxy⟩ := h.cell hx
  exact ⟨_, setChild?_eq_some.2 ⟨y, hy, hxy.locked hl, rfl⟩, h.setChild p i value⟩

end Under

end ObjTree

namespace Prog

/-- A program does on `T` what it does on a tree with more locks. -/
theorem run_under (t₁ : TxnType) (prog : Prog P α) (h : T.Under T₁) (hf : T.Fits) (hf₁ : T₁.Fits)
    (hc : t = .copyOnWrite → prog.Copies c t (Lossless c) T)
    (hc₁ : t₁ = .copyOnWrite → prog.Copies c t₁ (Lossless c) T₁)
    (hd : (prog.run c t T).1 ≠ .undefined) :
    (prog.run c t₁ T₁).1 = (prog.run c t T).1 ∧
      (prog.run c t T).2.Under (prog.run c t₁ T₁).2 := by
  induction prog generalizing T T₁ with
  | ret | throw | undef => exact ⟨rfl, h⟩
  | read q i k ih =>
    cases hr : T.read q i with
    | none => simp [run, hr] at hd
    | some T' =>
      obtain ⟨T₁', hr₁, h'⟩ := h.read hr
      simp only [run, hr, hr₁] at hd ⊢
      exact ih h' (hf.read hr) (hf₁.read hr₁) (fun ht => hc ht T' hr) (fun ht => hc₁ ht T₁' hr₁) hd
  | write q i k ih =>
    cases hr : T.write c t q i with
    | none => simp [run, hr] at hd
    | some T' =>
      obtain ⟨T₁', hr₁, h'⟩ := h.write t₁ hf hf₁ hr (fun ht => (hc ht).1) fun ht => (hc₁ ht).1
      simp only [run, hr, hr₁] at hd ⊢
      exact ih h' (hf.write hr) (hf₁.write hr₁) (fun ht => (hc ht).2 T' hr)
        (fun ht => (hc₁ ht).2 T₁' hr₁) hd
  | load p k ih =>
    cases hr : T.load p with
    | none => simp [run, hr] at hd
    | some x =>
      obtain ⟨y, hr₁, hxy⟩ := h.load hr
      simp only [run, hr, hr₁, hxy.payload] at hd ⊢
      exact ih _ h hf hf₁ (fun ht => hc ht x hr) (fun ht => hxy.payload ▸ hc₁ ht y hr₁) hd
  | slots p k ih =>
    cases hr : T.load p with
    | none => simp [run, hr] at hd
    | some x =>
      obtain ⟨y, hr₁, hxy⟩ := h.load hr
      simp only [run, hr, hr₁, h.slots hxy] at hd ⊢
      exact ih _ h hf hf₁ (fun ht => hc ht x hr) (fun ht => h.slots hxy ▸ hc₁ ht y hr₁) hd
  | store q i v notify k ih =>
    cases hr : T.store (i :: q) v notify with
    | none => simp [run, hr] at hd
    | some T' =>
      obtain ⟨T₁', hr₁, h'⟩ := h.store hr
      simp only [run, hr, hr₁] at hd ⊢
      exact ih h' (hf.store hr) (hf₁.store hr₁) (fun ht => hc ht T' hr)
        (fun ht => hc₁ ht T₁' hr₁) hd
  | setChild q j i value k ih =>
    cases hr : T.setChild? c (j :: q) i value with
    | none => simp [run, hr] at hd
    | some T' =>
      obtain ⟨T₁', hr₁, h'⟩ := h.setChild? hr
      simp only [run, hr, hr₁] at hd ⊢
      exact ih h' (hf.setChild? hr) (hf₁.setChild? hr₁) (fun ht => hc ht T' hr)
        (fun ht => hc₁ ht T₁' hr₁) hd

/-- Two trees with the same locks. -/
def Exact (T T₁ : ObjTree P) : Prop := T.Under T₁ ∧ T₁.Under T

theorem Exact.cell (h : Exact T T₁) {p : Path} {x : Cell P} (hx : T.cells p = some x) :
    ∃ y, T₁.cells p = some y ∧ y.payload = x.payload ∧ y.locked = x.locked ∧
      (x.locked = false → y.old = x.old) := by
  obtain ⟨y, hy, hxy⟩ := h.1.cell hx
  obtain ⟨x', hx', hyx⟩ := h.2.cell hy
  cases hx.symm.trans hx'
  have hl : y.locked = x.locked := Bool.eq_iff_iff.2 ⟨hyx.locked, hxy.locked⟩
  have hr : y.readable = x.readable := Bool.eq_iff_iff.2 ⟨hyx.readable, hxy.readable⟩
  refine ⟨y, hy, hxy.payload, hl, fun hx => ?_⟩
  simpa [Cell.readable, hl, hx] using hr

end Prog

/-! ## Objects that have not been asked for -/

/-- An old object without a write lock is as it was. -/
def ObjTree.Untouched (T₀ T : ObjTree P) : Prop :=
  ∀ p x, T.cells p = some x → x.old = true → x.locked = false →
    ∃ x₀, T₀.cells p = some x₀ ∧ x.payload = x₀.payload

theorem ObjTree.Untouched.modify {T₀ : ObjTree P} (h : T₀.Untouched T) {p : Path}
    {f : Cell P → Cell P} (hf : ∀ x, T.cells p = some x → (f x).locked = true) :
    T₀.Untouched (T.modify p f) := by
  intro r x hx ho hl
  by_cases hr : r = p
  · subst hr
    rw [modify_self] at hx
    obtain ⟨y, hy, rfl⟩ := Option.map_eq_some_iff.1 hx
    exact absurd ((hf y hy).symm.trans hl) (by simp)
  · rw [modify_ne T f hr] at hx
    exact h r x hx ho hl

theorem ObjTree.Untouched.run {T₀ : ObjTree P} (c : Copying P) (type : TxnType)
    (h : T₀.Untouched T) (prog : Prog P α) : T₀.Untouched (prog.run c type T).2 := by
  refine Prog.run_invariant (I := T₀.Untouched) (fun T q i x h _ _ _ => h.modify fun _ _ => rfl)
    (fun T q i x y h _ hx _ _ hy hl => ?_) (fun T q i x v notify h hx hl => h.modify ?_)
    (fun T q j i x value h hx hl => ?_) prog h
  · have hcopy : T₀.Untouched ⟨fun r => if r = i :: q then
        some ⟨c.copyOf x.payload, x.width, c.junk T.next, false, false, true⟩ else T.cells r,
        T.next + 1⟩ := by
      intro r z hz ho hl
      dsimp only at hz
      split at hz
      · cases hz
        cases ho
      · exact h r z hz ho hl
    refine hcopy.modify fun z hz => ?_
    have hzq : T.cells q = some z := by simpa using hz
    cases hy.symm.trans hzq
    simpa using hl
  · intro y hy
    cases hx.symm.trans hy
    simpa using hl
  · have hm : T₀.Untouched (T.modify (j :: q) (·.setChild i)) := h.modify fun y hy => by
      cases hx.symm.trans hy
      simpa using hl
    intro r z hz ho hzl
    by_cases hr : (i :: j :: q) <:+ r
    · obtain ⟨s, rfl⟩ := hr
      rw [ObjTree.setChild, graft_below] at hz
      cases value with
      | none => cases hz
      | some y =>
        match s, hz with
        | [], hz =>
          cases hz
          cases ho
        | [_], hz =>
          obtain ⟨u, -, rfl⟩ := Option.map_eq_some_iff.1 hz
          cases ho
        | _ :: _ :: _, hz => cases hz
    · rw [ObjTree.setChild, graft_other _ _ hr] at hz
      exact hm r z hz ho hzl

/-- What is asked of the objects that are written only matters for those that were there. -/
theorem Prog.Copies.imp {T₀ : ObjTree P} {Q Q' : P → Prop} {type : TxnType}
    (hQ : ∀ p x, T₀.cells p = some x → Q x.payload → Q' x.payload) {prog : Prog P α}
    (hu : T₀.Untouched T) (h : prog.Copies c type Q T) : prog.Copies c type Q' T := by
  induction prog generalizing T with
  | ret | throw | undef => trivial
  | read q i k ih =>
    intro T' hr
    have := hu.run c type (.read q i (.ret ()))
    rw [run, hr] at this
    exact ih this (h T' hr)
  | write q i k ih =>
    refine ⟨fun x hx hl ho => ?_, fun T' hr => ?_⟩
    · obtain ⟨x₀, hx₀, hp⟩ := hu _ x hx ho hl
      rw [hp]
      exact hQ _ x₀ hx₀ (hp ▸ h.1 x hx hl ho)
    · have := hu.run c type (.write q i (.ret ()))
      rw [run, hr] at this
      exact ih this (h.2 T' hr)
  | load p k ih => exact fun x hx => ih _ hu (h x hx)
  | slots p k ih => exact fun x hx => ih _ hu (h x hx)
  | store q i v notify k ih =>
    intro T' hr
    have := hu.run c type (.store q i v notify (.ret ()))
    rw [run, hr] at this
    exact ih this (h T' hr)
  | setChild q j i value k ih =>
    intro T' hr
    have := hu.run c type (.setChild q j i value (.ret ()))
    rw [run, hr] at this
    exact ih this (h T' hr)

end Alto
