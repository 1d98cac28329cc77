import Alto.App.GuidanceMatrix
import Alto.Lib.MapEntries
import Alto.Lib.Run

/-!
# The references to guidance matrices

A container counts the references that callers hold to its matrix. It is found again through a key
that is made from the matrix. That key is the one under which the container is stored as long as the
address of the Optimization Engine is not a `host:port` text, which the connection takes apart, and
as long as no option is a NaN.
-/

namespace Alto

theorem Double.not_lt_iff {x y : Double} (hx : x ≠ .nan) (hy : y ≠ .nan) :
    (x.lt y = false ∧ y.lt x = false) ↔ x = y := by
  cases x with
  | nan => exact absurd rfl hx
  | inf s =>
    cases y with
    | nan => exact absurd rfl hy
    | inf t => cases s <;> cases t <;> decide
    | fin q => cases s <;> simp [Double.lt]
  | fin p =>
    cases y with
    | nan => exact absurd rfl hy
    | inf t => cases t <;> simp [Double.lt]
    | fin q =>
      simp only [Double.lt, decide_eq_false_iff_not, not_lt, Double.fin.injEq]
      exact ⟨fun h => le_antisymm h.2 h.1, fun h => ⟨h.ge, h.le⟩⟩

namespace Guidance

open Lib

variable {ISP : Type} [LinearOrder ISP]

/-! ## The order of the keys -/

/-- No option is a NaN. -/
def PeeringGuidanceMatrixOptions.Numeric (options : PeeringGuidanceMatrixOptions) : Prop :=
  options.overloadProtectionFactor ≠ .nan ∧ options.streamingdependentChannelrate ≠ .nan ∧
    options.intrapidPct ≠ .nan ∧ options.intraispPct ≠ .nan

instance (options : PeeringGuidanceMatrixOptions) : Decidable options.Numeric :=
  inferInstanceAs (Decidable (_ ∧ _ ∧ _ ∧ _))

/-- The part of the options that `operator<` compares. -/
def PeeringGuidanceMatrixOptions.compared (options : PeeringGuidanceMatrixOptions) :
    PeeringGuidanceMatrixOptions :=
  { options with useOptengineTTL := true, recomputeInterval := 0 }

/-- The part of a key that `operator<` compares. -/
def GuidanceMatrixKey.compared (key : GuidanceMatrixKey ISP) : GuidanceMatrixKey ISP :=
  { key with options := key.options.compared }

/-- One field of a lexicographic order. -/
theorem lex_iff {p q : Prop} [Decidable p] [Decidable q] {r r' : Bool} :
    ((if p then true else if q then false else r) = false ∧
      (if q then true else if p then false else r') = false) ↔
      (¬ p ∧ ¬ q) ∧ r = false ∧ r' = false := by
  by_cases hp : p <;> by_cases hq : q <;> simp [hp, hq]

theorem not_lt_and_iff {T : Type*} [LinearOrder T] {a b : T} : (¬ a < b ∧ ¬ b < a) ↔ a = b := by
  rw [not_lt, not_lt]
  exact ⟨fun h => le_antisymm h.2 h.1, fun h => ⟨h.ge, h.le⟩⟩

theorem OptType.toNat_inj {a b : OptType} : a.toNat = b.toNat ↔ a = b := by
  cases a <;> cases b <;> decide

theorem PeeringGuidanceMatrixOptions.same_iff {a b : PeeringGuidanceMatrixOptions}
    (ha : a.Numeric) (hb : b.Numeric) :
    (a.less b = false ∧ b.less a = false) ↔ a.compared = b.compared := by
  unfold less
  simp only [lex_iff, not_lt_and_iff, OptType.toNat_inj, Bool.not_eq_true,
    Double.not_lt_iff ha.1 hb.1, Double.not_lt_iff ha.2.1 hb.2.1,
    Double.not_lt_iff ha.2.2.1 hb.2.2.1, Double.not_lt_iff ha.2.2.2 hb.2.2.2, compared, mk.injEq]
  simp

/-- The order cannot tell two keys apart exactly if the compared parts are equal. -/
theorem GuidanceMatrixKey.same_iff (a b : GuidanceMatrixKey ISP) (ha : a.options.Numeric)
    (hb : b.options.Numeric) :
    LessMap.same GuidanceMatrixKey.less a b = true ↔ a.compared = b.compared := by
  unfold LessMap.same less
  simp only [Bool.and_eq_true, Bool.not_eq_true', lex_iff, not_lt_and_iff, Bool.not_eq_true,
    PeeringGuidanceMatrixOptions.same_iff ha hb, compared, mk.injEq]
  simp

/-! ## The containers by class and address -/

namespace PeeringGuidanceMatrixManager

variable {m : PeeringGuidanceMatrixManager ISP} {key : GuidanceMatrixKey ISP}

/-- The container at an address under a class of keys. -/
def slot (m : PeeringGuidanceMatrixManager ISP) (cls : GuidanceMatrixKey ISP) (address : Nat) :
    Option GuidanceMatrixContainer :=
  (LessMap.under GuidanceMatrixKey.compared m.matrices cls).bind (·[address]?)

/-- The keys have no NaN and are pairwise different. -/
structure KeysOk (m : PeeringGuidanceMatrixManager ISP) : Prop where
  numeric : ∀ e ∈ m.matrices, e.1.options.Numeric
  nodup : (m.matrices.map fun e => e.1.compared).Nodup

theorem KeysOk.containers (h : m.KeysOk) (hkey : key.options.Numeric) (address : Nat) :
    (m.containers key)[address]? = m.slot key.compared address := by
  have hfind := LessMap.find_eq_under GuidanceMatrixKey.same_iff h.numeric hkey
  unfold PeeringGuidanceMatrixManager.containers slot
  rw [hfind]
  cases LessMap.under GuidanceMatrixKey.compared m.matrices key.compared <;> simp

theorem KeysOk.modify (h : m.KeysOk) (f : GuidanceMatrixContainers → GuidanceMatrixContainers) :
    (m.modify key f).KeysOk where
  numeric e he := by
    obtain ⟨e', he', heq⟩ := LessMap.mem_modify he
    exact heq ▸ h.numeric e' he'
  nodup := by
    rw [PeeringGuidanceMatrixManager.modify, LessMap.map_key_modify]
    exact h.nodup

theorem KeysOk.slot_modify (h : m.KeysOk) (hkey : key.options.Numeric)
    (f : GuidanceMatrixContainers → GuidanceMatrixContainers) (cls : GuidanceMatrixKey ISP)
    (address : Nat) :
    (m.modify key f).slot cls address =
      if key.compared = cls then
        (LessMap.under GuidanceMatrixKey.compared m.matrices cls).bind fun cs => (f cs)[address]?
      else m.slot cls address := by
  unfold slot PeeringGuidanceMatrixManager.modify
  rw [LessMap.under_modify GuidanceMatrixKey.same_iff h.numeric hkey]
  split
  · cases LessMap.under GuidanceMatrixKey.compared m.matrices cls <;> rfl
  · rfl

/-- A container stored under a key of the map. -/
theorem KeysOk.slot_insert (h : m.KeysOk) (hkey : key.options.Numeric) {a : Nat}
    {c : GuidanceMatrixContainer}
    (hin : (LessMap.under GuidanceMatrixKey.compared m.matrices key.compared).isSome)
    (cls : GuidanceMatrixKey ISP) (address : Nat) :
    (m.modify key (·.insert a c)).slot cls address =
      if key.compared = cls ∧ a = address then some c else m.slot cls address := by
  rw [h.slot_modify hkey]
  by_cases hcls : key.compared = cls
  · subst hcls
    obtain ⟨cs, hcs⟩ := Option.isSome_iff_exists.1 hin
    simp [slot, hcs, StdMap.get_insert]
  · simp [hcls]

/-- A container erased under a key. -/
theorem KeysOk.slot_erase (h : m.KeysOk) (hkey : key.options.Numeric) {a : Nat}
    (cls : GuidanceMatrixKey ISP) (address : Nat) :
    (m.modify key (·.erase a)).slot cls address =
      if key.compared = cls ∧ a = address then none else m.slot cls address := by
  rw [h.slot_modify hkey]
  by_cases hcls : key.compared = cls
  · subst hcls
    unfold slot
    cases LessMap.under GuidanceMatrixKey.compared m.matrices key.compared with
    | none => simp
    | some cs => simp [StdMap.get_erase]
  · simp [hcls]

/-- A new key has no containers. -/
theorem KeysOk.addKey (h : m.KeysOk) (hkey : key.options.Numeric) :
    (m.addKey key).KeysOk ∧ (m.addKey key).slot = m.slot ∧
      (LessMap.under GuidanceMatrixKey.compared (m.addKey key).matrices key.compared).isSome := by
  have hfind := LessMap.find_eq_under GuidanceMatrixKey.same_iff h.numeric hkey
  unfold PeeringGuidanceMatrixManager.addKey
  split
  · next hnone =>
    rw [hfind] at hnone
    refine ⟨⟨fun e he => ?_, LessMap.nodup_add h.nodup hnone⟩, ?_, ?_⟩
    · rcases LessMap.mem_add.1 he with rfl | he
      · exact hkey
      · exact h.numeric e he
    · funext cls address
      unfold slot
      rw [LessMap.under_add h.nodup hnone]
      split
      · next hcls => simp [← hcls, hnone]
      · rfl
    · rw [LessMap.under_add h.nodup hnone, if_pos rfl]
      rfl
  · next cs hsome =>
    rw [hfind] at hsome
    exact ⟨h, rfl, Option.isSome_iff_exists.2 ⟨cs, hsome⟩⟩

/-- A stored container with the matrix at this address and this count. -/
def Stores (m : PeeringGuidanceMatrixManager ISP) (matrix refcount : Nat) : Prop :=
  ∃ e ∈ m.matrices, ∃ (address : Nat) (c : GuidanceMatrixContainer),
    e.2[address]? = some c ∧ c.matrix = matrix ∧ c.refcount = refcount

theorem KeysOk.mem_iff (h : m.KeysOk) {a : Nat} {c : GuidanceMatrixContainer} :
    (∃ e ∈ m.matrices, e.2[a]? = some c) ↔ ∃ cls, m.slot cls a = some c := by
  constructor
  · rintro ⟨e, he, hget⟩
    refine ⟨e.1.compared, ?_⟩
    rw [slot, LessMap.under_of_mem h.nodup he]
    exact hget
  · rintro ⟨cls, hslot⟩
    obtain ⟨cs, hunder, hget⟩ := Option.bind_eq_some_iff.1 hslot
    obtain ⟨k, hmem, -⟩ := LessMap.mem_of_under hunder
    exact ⟨(k, cs), hmem, hget⟩

theorem KeysOk.stores_iff (h : m.KeysOk) {p n : Nat} :
    m.Stores p n ↔ ∃ cls a c, m.slot cls a = some c ∧ c.matrix = p ∧ c.refcount = n := by
  constructor
  · rintro ⟨e, he, a, c, hget, hc⟩
    obtain ⟨cls, hslot⟩ := h.mem_iff.1 ⟨e, he, hget⟩
    exact ⟨cls, a, c, hslot, hc⟩
  · rintro ⟨cls, a, c, hslot, hc⟩
    obtain ⟨e, he, hget⟩ := h.mem_iff.2 ⟨cls, hslot⟩
    exact ⟨e, he, a, c, hget, hc⟩

end PeeringGuidanceMatrixManager

/-! ## Callers and their references -/

/-- The manager, and how often callers have acquired and released each matrix. -/
structure References (ISP : Type) where
  manager : PeeringGuidanceMatrixManager ISP := {}
  acquired : Nat → Nat := fun _ => 0
  released : Nat → Nat := fun _ => 0

/-- A call of the manager. -/
inductive Call (ISP : Type) where
  | get (sys : System) (key : GuidanceMatrixKey ISP)
  | addRef (matrix : Nat)
  | release (matrix : Nat)
  | setOptions (sys : System) (matrix : Nat) (options : PeeringGuidanceMatrixOptions)

namespace References

/-- The caller got a reference. -/
def acquire (s : References ISP) (m : PeeringGuidanceMatrixManager ISP) (matrix : Nat) :
    References ISP :=
  { s with
    manager := m
    acquired := Function.update s.acquired matrix (s.acquired matrix + 1) }

/-- The caller gave up a reference. -/
def release (s : References ISP) (m : PeeringGuidanceMatrixManager ISP) (matrix : Nat) :
    References ISP :=
  { s with
    manager := m
    released := Function.update s.released matrix (s.released matrix + 1) }

omit [LinearOrder ISP] in
theorem released_release (s : References ISP) (m : PeeringGuidanceMatrixManager ISP) (p q : Nat) :
    (s.release m p).released q = if q = p then s.released p + 1 else s.released q :=
  Function.update_apply s.released p _ q

/-- One call. Only matrices that are held get passed to the manager, and `setOptions` swaps the
reference for the one that it returns. -/
def step (s : References ISP) : Call ISP → Option (References ISP)
  | .get sys key =>
    match s.manager.getGuidanceMatrix sys key with
    | .returned matrix m => some (s.acquire m matrix)
    | .threw m => some { s with manager := m }
    | .undefined => none
  | .addRef matrix =>
    if s.released matrix < s.acquired matrix then
      match s.manager.addGuidanceMatrixRef matrix with
      | .returned true m => some (s.acquire m matrix)
      | .returned false m => some { s with manager := m }
      | .threw m => some { s with manager := m }
      | .undefined => none
    else none
  | .release matrix =>
    if s.released matrix < s.acquired matrix then
      match s.manager.releaseGuidanceMatrix matrix with
      | .returned true m => some (s.release m matrix)
      | .returned false m => some { s with manager := m }
      | .threw m => some { s with manager := m }
      | .undefined => none
    else none
  | .setOptions sys matrix options =>
    if s.released matrix < s.acquired matrix then
      match s.manager.setOptions sys matrix options with
      | .returned (some new) m => some ((s.release m matrix).acquire m new)
      | .returned none m => some { s with manager := m }
      | .threw m => some (s.release m matrix)
      | .undefined => none
    else none

/-- Containers count references: the count of a container is the number of acquisitions less the
number of releases, and at least one; exactly the held matrices are stored, each under the key made
from it; a swarm-independent key has at most one container; and a release of a held matrix succeeds
and leaves the other ones alone. -/
structure Counted (s : References ISP) : Prop where
  refcount : ∀ p n, s.manager.Stores p n → n + s.released p = s.acquired p ∧ 1 ≤ n
  stored : ∀ p, (∃ n, s.manager.Stores p n) ↔ s.released p < s.acquired p
  found : ∀ e ∈ s.manager.matrices, ∀ (a : Nat) (c : GuidanceMatrixContainer), e.2[a]? = some c →
    ∃ object, s.manager.heap[c.matrix]? = some object ∧
      LessMap.find GuidanceMatrixKey.less s.manager.matrices object.key = some e.2
  shared : ∀ e ∈ s.manager.matrices, e.1.options.isSwarmDependent = false → e.2.size ≤ 1
  release : ∀ p, s.released p < s.acquired p →
    ∃ m, s.manager.releaseGuidanceMatrix p = .returned true m ∧
      (∀ n, m.Stores p n ↔ 1 ≤ n ∧ s.manager.Stores p (n + 1)) ∧
      ∀ q n, q ≠ p → (m.Stores q n ↔ s.manager.Stores q n)

/-- A matrix that a new reference to this key would share can have one more reference. -/
def Room (s : References ISP) (key : GuidanceMatrixKey ISP) : Prop :=
  key.options.isSwarmDependent = false →
    ∀ (p : Nat) (object : PeeringGuidanceMatrix ISP), s.manager.heap[p]? = some object →
      object.key.compared = key.compared → s.acquired p - s.released p + 1 < 2 ^ 32

/-- The engine has a plain host name, no option is a NaN, and no count overflows. -/
def Ok (s : References ISP) : Call ISP → Prop
  | .get _ key => ':' ∉ key.optEngineAddr ∧ key.options.Numeric ∧ s.Room key
  | .addRef matrix => s.acquired matrix - s.released matrix + 1 < 2 ^ 32
  | .release _ => True
  | .setOptions _ matrix options => options.Numeric ∧
    ∀ object : PeeringGuidanceMatrix ISP, s.manager.heap[matrix]? = some object →
      s.Room { object.key with options }

/-- What every call keeps. -/
structure Invariant (s : References ISP) : Prop where
  keys : s.manager.KeysOk
  balance : ∀ p, s.released p ≤ s.acquired p
  held : ∀ p, s.released p < s.acquired p → ∃ cls a c, s.manager.slot cls a = some c ∧ c.matrix = p
  stored : ∀ {cls a c}, s.manager.slot cls a = some c →
    c.refcount + s.released c.matrix = s.acquired c.matrix ∧ 1 ≤ c.refcount ∧ c.refcount < 2 ^ 32
  object : ∀ {cls a c}, s.manager.slot cls a = some c →
    ∃ object, s.manager.heap[c.matrix]? = some object ∧ object.key.compared = cls ∧
      object.options.Numeric ∧ ':' ∉ object.proto.host
  unique : ∀ {cls a c cls' a' c'}, s.manager.slot cls a = some c → s.manager.slot cls' a' = some c' →
    c.matrix = c'.matrix → cls = cls' ∧ a = a'
  single : ∀ {cls a c a' c'}, cls.options.isSwarmDependent = false →
    s.manager.slot cls a = some c → s.manager.slot cls a' = some c' → a = a'

namespace Invariant

open PeeringGuidanceMatrixManager

variable {s : References ISP} {m : PeeringGuidanceMatrixManager ISP} {acq rel : Nat → Nat}
variable {cls : GuidanceMatrixKey ISP} {a p : Nat} {c c' : GuidanceMatrixContainer}

/-- A container gets another count. -/
theorem recount (h : Invariant s) (hc : s.manager.slot cls a = some c) (hkeys : m.KeysOk)
    (hheap : m.heap = s.manager.heap) (hmatrix : c'.matrix = c.matrix)
    (hslot : ∀ cls' a', m.slot cls' a' =
      if cls = cls' ∧ a = a' then some c' else s.manager.slot cls' a')
    (hcount : c'.refcount + rel c.matrix = acq c.matrix ∧ 1 ≤ c'.refcount ∧ c'.refcount < 2 ^ 32)
    (hacq : ∀ q ≠ c.matrix, acq q = s.acquired q) (hrel : ∀ q ≠ c.matrix, rel q = s.released q) :
    Invariant ⟨m, acq, rel⟩ := by
  -- a slot of the new state is the changed one, or one with another matrix
  have hcases : ∀ {cls' a' d}, m.slot cls' a' = some d →
      (cls = cls' ∧ a = a' ∧ d = c') ∨ (d.matrix ≠ c.matrix ∧ s.manager.slot cls' a' = some d) := by
    intro cls' a' d hd
    rw [hslot] at hd
    split at hd
    · next heq => exact .inl ⟨heq.1, heq.2, (Option.some.inj hd).symm⟩
    · next hne =>
      refine .inr ⟨fun heq => hne ?_, hd⟩
      exact h.unique hc hd heq.symm
  have hold : ∀ {cls' a' d}, m.slot cls' a' = some d →
      ∃ d', s.manager.slot cls' a' = some d' ∧ d'.matrix = d.matrix := by
    intro cls' a' d hd
    rcases hcases hd with ⟨rfl, rfl, rfl⟩ | ⟨-, hd⟩
    · exact ⟨c, hc, hmatrix.symm⟩
    · exact ⟨d, hd, rfl⟩
  have hbalance : ∀ q, rel q ≤ acq q := by
    intro q
    by_cases hq : q = c.matrix
    · rw [hq, ← hcount.1]
      exact Nat.le_add_left _ _
    · rw [hacq q hq, hrel q hq]
      exact h.balance q
  refine ⟨hkeys, hbalance, fun q hq => ?_, fun hd => ?_, fun hd => ?_, fun hd hd' heq => ?_,
    fun hdep hd hd' => ?_⟩
  · by_cases hqc : q = c.matrix
    · exact ⟨cls, a, c', by rw [hslot, if_pos ⟨rfl, rfl⟩], hmatrix.trans hqc.symm⟩
    · replace hq : rel q < acq q := hq
      rw [hacq q hqc, hrel q hqc] at hq
      obtain ⟨cls', a', d, hd, rfl⟩ := h.held q hq
      refine ⟨cls', a', d, ?_, rfl⟩
      rw [hslot, if_neg]
      · exact hd
      · rintro ⟨rfl, rfl⟩
        rw [hc] at hd
        exact hqc (congrArg _ (Option.some.inj hd).symm)
  · rcases hcases hd with ⟨-, -, rfl⟩ | ⟨hne, hd⟩
    · simpa [hmatrix] using hcount
    · simpa [hacq _ hne, hrel _ hne] using h.stored hd
  · obtain ⟨d', hd', hm⟩ := hold hd
    rw [← hm]
    simpa [hheap] using h.object hd'
  · obtain ⟨d, hd, hm⟩ := hold hd
    obtain ⟨d', hd', hm'⟩ := hold hd'
    exact h.unique hd hd' (by rw [hm, hm', heq])
  · obtain ⟨d, hd, -⟩ := hold hd
    obtain ⟨d', hd', -⟩ := hold hd'
    exact h.single hdep hd hd'

/-- A container whose last reference is released leaves. -/
theorem remove (h : Invariant s) (hc : s.manager.slot cls a = some c) (hkeys : m.KeysOk)
    (hheap : m.heap = s.manager.heap.erase c.matrix)
    (hslot : ∀ cls' a', m.slot cls' a' = if cls = cls' ∧ a = a' then none else s.manager.slot cls' a')
    (hcount : rel c.matrix = acq c.matrix) (hacq : ∀ q ≠ c.matrix, acq q = s.acquired q)
    (hrel : ∀ q ≠ c.matrix, rel q = s.released q) :
    Invariant ⟨m, acq, rel⟩ := by
  have hold : ∀ {cls' a' d}, m.slot cls' a' = some d →
      d.matrix ≠ c.matrix ∧ s.manager.slot cls' a' = some d := by
    intro cls' a' d hd
    rw [hslot] at hd
    split at hd
    · cases hd
    · next hne =>
      refine ⟨fun heq => hne ?_, hd⟩
      exact h.unique hc hd heq.symm
  have hbalance : ∀ q, rel q ≤ acq q := by
    intro q
    by_cases hq : q = c.matrix
    · rw [hq, hcount]
    · rw [hacq q hq, hrel q hq]
      exact h.balance q
  refine ⟨hkeys, hbalance, fun q hq => ?_, fun hd => ?_, fun hd => ?_, fun hd hd' heq => ?_,
    fun hdep hd hd' => ?_⟩
  · replace hq : rel q < acq q := hq
    have hqc : q ≠ c.matrix := by
      rintro rfl
      exact hq.ne hcount
    rw [hacq q hqc, hrel q hqc] at hq
    obtain ⟨cls', a', d, hd, rfl⟩ := h.held q hq
    refine ⟨cls', a', d, ?_, rfl⟩
    rw [hslot, if_neg]
    · exact hd
    · rintro ⟨rfl, rfl⟩
      rw [hc] at hd
      exact hqc (congrArg _ (Option.some.inj hd).symm)
  · obtain ⟨hne, hd⟩ := hold hd
    simpa [hacq _ hne, hrel _ hne] using h.stored hd
  · obtain ⟨hne, hd⟩ := hold hd
    simpa [hheap, StdMap.get_erase, Ne.symm hne] using h.object hd
  · exact h.unique (hold hd).2 (hold hd').2 heq
  · exact h.single hdep (hold hd).2 (hold hd').2

/-- A new container with a new matrix. -/
theorem create (h : Invariant s) {object : PeeringGuidanceMatrix ISP} (hkeys : m.KeysOk)
    (hmatrix : p ∉ s.manager.heap) (haddress : ∀ cls', s.manager.slot cls' a = none)
    (hheap : m.heap = s.manager.heap.insert p object)
    (hslot : ∀ cls' a', m.slot cls' a' =
      if cls = cls' ∧ a = a' then some { matrix := p } else s.manager.slot cls' a')
    (hobject : object.key.compared = cls ∧ object.options.Numeric ∧ ':' ∉ object.proto.host)
    (hsingle : cls.options.isSwarmDependent = false → ∀ a', s.manager.slot cls a' = none) :
    Invariant (s.acquire m p) := by
  have hother : ∀ {cls' a' d}, s.manager.slot cls' a' = some d → d.matrix ≠ p := by
    rintro cls' a' d hd rfl
    obtain ⟨object, hget, -⟩ := h.object hd
    exact hmatrix (StdMap.mem_iff_get.2 ⟨object, hget⟩)
  have hfree : s.acquired p = s.released p := by
    by_contra hne
    obtain ⟨cls', a', d, hd, heq⟩ := h.held p (lt_of_le_of_ne (h.balance p) (Ne.symm hne))
    exact hother hd heq
  have hcases : ∀ {cls' a' d}, m.slot cls' a' = some d →
      (cls' = cls ∧ a' = a ∧ d = { matrix := p }) ∨ s.manager.slot cls' a' = some d := by
    intro cls' a' d hd
    rw [hslot] at hd
    split at hd
    · next heq => exact .inl ⟨heq.1.symm, heq.2.symm, (Option.some.inj hd).symm⟩
    · exact .inr hd
  have hacq : ∀ q ≠ p, (s.acquire m p).acquired q = s.acquired q :=
    fun q hq => Function.update_of_ne hq _ _
  have hnew : (s.acquire m p).acquired p = s.acquired p + 1 := Function.update_self ..
  refine ⟨hkeys, fun q => ?_, fun q hq => ?_, fun hd => ?_, fun hd => ?_, fun hd hd' heq => ?_,
    fun hdep hd hd' => ?_⟩
  · by_cases hq : q = p
    · rw [hq, hnew]
      exact (h.balance p).trans (Nat.le_succ _)
    · rw [hacq q hq]
      exact h.balance q
  · by_cases hqp : q = p
    · exact ⟨cls, a, { matrix := p }, by rw [acquire, hslot, if_pos ⟨rfl, rfl⟩], hqp.symm⟩
    · rw [hacq q hqp] at hq
      obtain ⟨cls', a', d, hd, rfl⟩ := h.held q hq
      refine ⟨cls', a', d, ?_, rfl⟩
      rw [acquire, hslot, if_neg]
      · exact hd
      · rintro ⟨-, rfl⟩
        rw [haddress] at hd
        cases hd
  · rcases hcases hd with ⟨-, -, rfl⟩ | hd
    · rw [hnew, hfree]
      exact ⟨Nat.add_comm _ _, le_refl 1, Nat.one_lt_two_pow (by decide)⟩
    · rw [hacq _ (hother hd)]
      exact h.stored hd
  · rcases hcases hd with ⟨rfl, -, rfl⟩ | hd
    · exact ⟨object, by rw [acquire, hheap, StdMap.get_insert, if_pos rfl], hobject⟩
    · obtain ⟨object', hget, hobj⟩ := h.object hd
      refine ⟨object', ?_, hobj⟩
      rw [acquire, hheap, StdMap.get_insert, if_neg (Ne.symm (hother hd))]
      exact hget
  · rcases hcases hd with ⟨rfl, rfl, rfl⟩ | hd <;> rcases hcases hd' with ⟨rfl, rfl, rfl⟩ | hd'
    · exact ⟨rfl, rfl⟩
    · exact absurd heq.symm (hother hd')
    · exact absurd heq (hother hd)
    · exact h.unique hd hd' heq
  · rcases hcases hd with ⟨rfl, rfl, -⟩ | hd <;> rcases hcases hd' with ⟨hcls, rfl, -⟩ | hd'
    · rfl
    · rw [hsingle hdep] at hd'
      cases hd'
    · rw [hcls, hsingle (hcls ▸ hdep)] at hd
      cases hd
    · exact h.single hdep hd hd'

/-- The search under the key of a matrix ends at its container. -/
theorem search_eq (h : Invariant s) {key : GuidanceMatrixKey ISP} (hkey : key.options.Numeric)
    (hc : s.manager.slot key.compared a = some c) :
    (s.manager.containers key).search c.matrix = some (a, c) := by
  have hget := h.keys.containers hkey
  have hmem : (a, c) ∈ (s.manager.containers key).toList := by
    rw [StdMap.mem_toList, hget]
    exact hc
  cases hsearch : (s.manager.containers key).search c.matrix with
  | none =>
    have hnone := List.find?_eq_none.1 hsearch (a, c) hmem
    simp at hnone
  | some x =>
    have hx := List.mem_of_find?_eq_some hsearch
    have hm : x.2.matrix = c.matrix := by simpa using List.find?_some hsearch
    rw [StdMap.mem_toList, hget] at hx
    obtain ⟨-, rfl⟩ := h.unique hx hc hm
    rw [hc] at hx
    rw [Option.some.inj hx]

/-- A held matrix, its container and its key. -/
theorem held_object (h : Invariant s) (hp : s.released p < s.acquired p) :
    ∃ (object : PeeringGuidanceMatrix ISP) (a : Nat) (c : GuidanceMatrixContainer),
      s.manager.heap[p]? = some object ∧ object.options.Numeric ∧ ':' ∉ object.proto.host ∧
        c.matrix = p ∧ s.manager.slot object.key.compared a = some c ∧
        (s.manager.containers object.key).search p = some (a, c) := by
  obtain ⟨cls, a, c, hc, rfl⟩ := h.held p hp
  obtain ⟨object, hget, rfl, hnumeric, hhost⟩ := h.object hc
  exact ⟨object, a, c, hget, hnumeric, hhost, rfl, hc, h.search_eq hnumeric hc⟩

theorem isSome_under {m : PeeringGuidanceMatrixManager ISP} (hc : m.slot cls a = some c) :
    (LessMap.under GuidanceMatrixKey.compared m.matrices cls).isSome := by
  obtain ⟨cs, hcs, -⟩ := Option.bind_eq_some_iff.1 hc
  exact Option.isSome_iff_exists.2 ⟨cs, hcs⟩

theorem incRefCount_matrix (c : GuidanceMatrixContainer) : c.incRefCount.matrix = c.matrix := by
  unfold GuidanceMatrixContainer.incRefCount
  rfl

theorem decRefCount_matrix (c : GuidanceMatrixContainer) : c.decRefCount.matrix = c.matrix := by
  unfold GuidanceMatrixContainer.decRefCount
  rfl

theorem incRefCount_eq (hc : c.refcount + 1 < 2 ^ 32) : c.incRefCount.refcount = c.refcount + 1 :=
  Nat.mod_eq_of_lt hc

theorem decRefCount_eq (hpos : 1 ≤ c.refcount) (hc : c.refcount < 2 ^ 32) :
    c.decRefCount.refcount = c.refcount - 1 := by
  have hsum : c.refcount + (2 ^ 32 - 1) = c.refcount - 1 + 2 ^ 32 := by omega
  rw [GuidanceMatrixContainer.decRefCount, hsum, Nat.add_mod_right]
  exact Nat.mod_eq_of_lt (by omega)

/-- One more reference to a stored container. -/
theorem inc (h : Invariant s) {key : GuidanceMatrixKey ISP} (hkey : key.options.Numeric)
    (hc : s.manager.slot key.compared a = some c)
    (hroom : s.acquired c.matrix - s.released c.matrix + 1 < 2 ^ 32) :
    Invariant (s.acquire (s.manager.modify key (·.insert a c.incRefCount)) c.matrix) := by
  have hstored := h.stored hc
  have hcount : c.incRefCount.refcount = c.refcount + 1 := incRefCount_eq (by omega)
  have hslot := h.keys.slot_insert hkey (isSome_under hc) (a := a) (c := c.incRefCount)
  refine h.recount hc (h.keys.modify _) rfl (incRefCount_matrix c) hslot ⟨?_, ?_, ?_⟩
    (fun q hq => Function.update_of_ne hq _ _) fun q _ => rfl
  · rw [Function.update_self]
    omega
  · omega
  · omega

/-- A reference is given up and acquired again. -/
theorem swap (h : Invariant s) (hc : s.manager.slot cls a = some c) :
    Invariant ((s.release s.manager c.matrix).acquire s.manager c.matrix) := by
  refine h.recount hc h.keys rfl rfl (fun cls' a' => ?_) ⟨?_, (h.stored hc).2⟩
    (fun q hq => Function.update_of_ne hq _ _) fun q hq => Function.update_of_ne hq _ _
  · split
    · next heq => rw [← heq.1, ← heq.2, hc]
    · rfl
  · rw [Function.update_self, released_release, if_pos rfl, ← Nat.add_assoc, (h.stored hc).1]
    rfl

/-- `addGuidanceMatrixRef` of a held matrix. -/
theorem addRef_spec (h : Invariant s) (hp : s.released p < s.acquired p)
    (hroom : s.acquired p - s.released p + 1 < 2 ^ 32) :
    ∃ m, s.manager.addGuidanceMatrixRef p = .returned true m ∧ Invariant (s.acquire m p) := by
  obtain ⟨object, a, c, hget, hnumeric, -, rfl, hc, hsearch⟩ := h.held_object hp
  refine ⟨s.manager.modify object.key (·.insert a c.incRefCount), ?_, h.inc hnumeric hc hroom⟩
  rw [addGuidanceMatrixRef, hget]
  simp only [hsearch]

/-- `releaseGuidanceMatrix` of a held matrix. -/
theorem release_spec (h : Invariant s) (hp : s.released p < s.acquired p) :
    ∃ m, s.manager.releaseGuidanceMatrix p = .returned true m ∧ Invariant (s.release m p) ∧
      ∀ (q : Nat) (object : PeeringGuidanceMatrix ISP), m.heap[q]? = some object →
        s.manager.heap[q]? = some object := by
  obtain ⟨object, a, c, hget, hnumeric, -, rfl, hc, hsearch⟩ := h.held_object hp
  replace hnumeric : object.key.options.Numeric := hnumeric
  have hstored := h.stored hc
  have hdec : c.decRefCount.refcount = c.refcount - 1 := decRefCount_eq hstored.2.1 hstored.2.2
  have hrelease : Function.update s.released c.matrix (s.released c.matrix + 1) c.matrix =
      s.released c.matrix + 1 := Function.update_self ..
  by_cases hlast : c.refcount = 1
  · have hfree : c.decRefCount.isReferenced = false := by
      simp [GuidanceMatrixContainer.isReferenced, hdec, hlast]
    have hkeys : (s.manager.modify object.key (·.erase a)).KeysOk := h.keys.modify _
    refine ⟨{ s.manager.modify object.key (·.erase a) with
        heap := s.manager.heap.erase c.matrix }, ?_, ?_, fun q object' hq => ?_⟩
    · rw [releaseGuidanceMatrix, hget]
      simp only [hsearch, hfree, Bool.false_eq_true, if_false, decRefCount_matrix]
    · refine h.remove hc ⟨hkeys.numeric, hkeys.nodup⟩ rfl (h.keys.slot_erase hnumeric) ?_
        (fun q _ => rfl) fun q hq => Function.update_of_ne hq _ _
      omega
    · rw [StdMap.get_erase] at hq
      split at hq
      · cases hq
      · exact hq
  · have hmore : c.decRefCount.isReferenced = true := by
      rw [GuidanceMatrixContainer.isReferenced, hdec, decide_eq_true_iff]
      omega
    have hslot := h.keys.slot_insert hnumeric (isSome_under hc) (a := a) (c := c.decRefCount)
    refine ⟨s.manager.modify object.key (·.insert a c.decRefCount), ?_, ?_, fun q object' hq => hq⟩
    · rw [releaseGuidanceMatrix, hget]
      simp only [hsearch, hmore, if_true]
    · refine h.recount hc (h.keys.modify _) rfl (decRefCount_matrix c) hslot ⟨?_, ?_, ?_⟩ (fun q _ => rfl)
        fun q hq => Function.update_of_ne hq _ _
      · omega
      · omega
      · omega

/-- A key is added without containers. -/
theorem addKey (h : Invariant s) {key : GuidanceMatrixKey ISP} (hkey : key.options.Numeric) :
    Invariant { s with manager := s.manager.addKey key } := by
  obtain ⟨hkeys, hslot, -⟩ := h.keys.addKey hkey
  have hheap : (s.manager.addKey key).heap = s.manager.heap := by
    unfold PeeringGuidanceMatrixManager.addKey
    split <;> rfl
  refine ⟨hkeys, h.balance, ?_, ?_, ?_, ?_, ?_⟩
  · simpa only [hslot] using h.held
  · simpa only [hslot] using @h.stored
  · simpa only [hslot, hheap] using @h.object
  · simpa only [hslot] using @h.unique
  · simpa only [hslot] using @h.single

omit [LinearOrder ISP] in
/-- The constructor of a matrix for a plain host name. -/
theorem createMatrix_eq (sys : System) {key : GuidanceMatrixKey ISP}
    (hhost : ':' ∉ key.optEngineAddr) :
    key.createMatrix sys = .threw () ∨
      key.createMatrix sys =
        .returned ⟨⟨key.optEngineAddr, key.optEnginePort⟩, key.isp, key.options⟩ () := by
  unfold GuidanceMatrixKey.createMatrix P4PProtocol.create
  rw [if_neg hhost]
  cases sys.curl <;> by_cases hempty : key.optEngineAddr = [] <;> simp [hempty]

/-- A new matrix under a key of the map. -/
theorem new (h : Invariant s) (sys : System) {key : GuidanceMatrixKey ISP}
    (hhost : ':' ∉ key.optEngineAddr) (hkey : key.options.Numeric)
    (hin : (LessMap.under GuidanceMatrixKey.compared s.manager.matrices key.compared).isSome)
    (hnew : (key.options.isSwarmDependent || (s.manager.containers key).isEmpty) = true)
    {address matrix : Nat} (haddress : address = sys.alloc s.manager.live)
    (hmatrix : matrix = sys.alloc (address :: s.manager.live)) :
    Invariant (s.acquire
      { s.manager.modify key (·.insert address { matrix }) with
        heap := s.manager.heap.insert matrix
          ⟨⟨key.optEngineAddr, key.optEnginePort⟩, key.isp, key.options⟩ } matrix) := by
  have hkeys : (s.manager.modify key (·.insert address { matrix })).KeysOk := h.keys.modify _
  have hfresh : address ∉ s.manager.live := haddress ▸ sys.fresh _
  have hfresh' : matrix ∉ s.manager.live := fun hmem =>
    sys.fresh _ (hmatrix ▸ List.mem_cons_of_mem address hmem)
  refine h.create ⟨hkeys.numeric, hkeys.nodup⟩ (fun hmem => hfresh' ?_) (fun cls => ?_) rfl
    (h.keys.slot_insert hkey hin) ⟨rfl, hkey, hhost⟩ fun hdep a => ?_
  · exact List.mem_append_left _ (Std.ExtTreeMap.mem_keys.2 hmem)
  · rw [Option.eq_none_iff_forall_ne_some]
    intro c hc
    obtain ⟨e, he, hget⟩ := h.keys.mem_iff.2 ⟨cls, hc⟩
    refine hfresh (List.mem_append_right _ (List.mem_flatMap.2 ⟨e, he, ?_⟩))
    exact Std.ExtTreeMap.mem_keys.2 (StdMap.mem_iff_get.2 ⟨c, hget⟩)
  · have hindependent : key.options.isSwarmDependent = false := hdep
    rw [hindependent, Bool.false_or, Std.ExtTreeMap.isEmpty_iff] at hnew
    rw [← h.keys.containers hkey, hnew]
    exact Std.ExtTreeMap.getElem?_empty

/-- The state behind a call of `getGuidanceMatrix`. -/
theorem get_spec (h : Invariant s) (sys : System) {key : GuidanceMatrixKey ISP}
    (hhost : ':' ∉ key.optEngineAddr) (hkey : key.options.Numeric) (hroom : s.Room key) :
    (∃ m p, s.manager.getGuidanceMatrix sys key = .returned p m ∧ Invariant (s.acquire m p)) ∨
      ∃ m, s.manager.getGuidanceMatrix sys key = .threw m ∧ Invariant { s with manager := m } := by
  have hin := (h.keys.addKey hkey).2.2
  have hadd := h.addKey hkey
  have hroom' : References.Room { s with manager := s.manager.addKey key } key := by
    unfold Room at hroom ⊢
    unfold PeeringGuidanceMatrixManager.addKey
    split <;> exact hroom
  by_cases hnew : (key.options.isSwarmDependent ||
      ((s.manager.addKey key).containers key).isEmpty) = true
  · rcases createMatrix_eq sys hhost with hthrow | hcreate
    · refine .inr ⟨s.manager.addKey key, ?_, hadd⟩
      simp only [getGuidanceMatrix, hnew, if_true, hthrow]
    · refine .inl ⟨_, _, ?_, hadd.new sys hhost hkey hin hnew rfl rfl⟩
      simp only [getGuidanceMatrix, hnew, if_true, hcreate]
  · obtain ⟨hindependent, hnonempty⟩ : key.options.isSwarmDependent = false ∧
        ((s.manager.addKey key).containers key).isEmpty = false := by simpa using hnew
    cases hlist : ((s.manager.addKey key).containers key).toList with
    | nil =>
      rw [← Std.ExtTreeMap.isEmpty_toList, hlist] at hnonempty
      cases hnonempty
    | cons x xs =>
      have hx : x ∈ ((s.manager.addKey key).containers key).toList := hlist ▸ List.mem_cons_self
      rw [StdMap.mem_toList, hadd.keys.containers hkey] at hx
      obtain ⟨object, hget, hobject, -⟩ := hadd.object hx
      refine .inl ⟨_, _, ?_, hadd.inc hkey hx (hroom' hindependent _ object hget hobject)⟩
      simp only [getGuidanceMatrix, hnew, hlist]
      rfl

omit [LinearOrder ISP] in
/-- Other options than the ones of a matrix belong to another key. -/
theorem compared_ne {object : PeeringGuidanceMatrix ISP} {options : PeeringGuidanceMatrixOptions}
    (hoptions : options.Numeric) (hne : options.beq object.options = false) :
    object.key.compared ≠ GuidanceMatrixKey.compared { object.key with options } := by
  intro heq
  have hcompared : object.options.compared = options.compared := congrArg (·.options) heq
  simp only [PeeringGuidanceMatrixOptions.compared, PeeringGuidanceMatrixOptions.mk.injEq]
    at hcompared
  have hfactor : options.overloadProtectionFactor.eq options.overloadProtectionFactor = true := by
    have hnan := hoptions.1
    cases hx : options.overloadProtectionFactor with
    | nan => exact absurd hx hnan
    | inf s => simp [Double.eq]
    | fin q => simp [Double.eq]
  simp [PeeringGuidanceMatrixOptions.beq, hcompared, hfactor] at hne

/-- Every call keeps the invariant. -/
theorem step (h : Invariant s) {call : Call ISP} {s' : References ISP} (hok : s.Ok call)
    (hstep : s.step call = some s') : Invariant s' := by
  cases call with
  | get sys key =>
    obtain ⟨hhost, hkey, hroom⟩ := hok
    rcases h.get_spec sys hhost hkey hroom with ⟨m, p, hget, hm⟩ | ⟨m, hget, hm⟩
    · simp only [References.step, hget, Option.some.injEq] at hstep
      exact hstep ▸ hm
    · simp only [References.step, hget, Option.some.injEq] at hstep
      exact hstep ▸ hm
  | addRef matrix =>
    simp only [References.step] at hstep
    split at hstep
    · next hp =>
      obtain ⟨m, hadd, hm⟩ := h.addRef_spec hp hok
      simp only [hadd, Option.some.injEq] at hstep
      exact hstep ▸ hm
    · cases hstep
  | release matrix =>
    simp only [References.step] at hstep
    split at hstep
    · next hp =>
      obtain ⟨m, hrelease, hm, -⟩ := h.release_spec hp
      simp only [hrelease, Option.some.injEq] at hstep
      exact hstep ▸ hm
    · cases hstep
  | setOptions sys matrix options =>
    simp only [References.step] at hstep
    split at hstep
    · next hp =>
      obtain ⟨object, a, c, hget, -, hhost, rfl, hc, -⟩ := h.held_object hp
      obtain ⟨hoptions, hroom⟩ := hok
      cases hbeq : options.beq object.options with
      | true =>
        simp only [setOptions, hget, hbeq, if_true, Option.some.injEq] at hstep
        exact hstep ▸ h.swap hc
      | false =>
        obtain ⟨m, hrelease, hm, hheap⟩ := h.release_spec hp
        have hroom' : References.Room (s.release m c.matrix) { object.key with options } := by
          intro hdep q object' hq hkey
          have hne : q ≠ c.matrix := by
            rintro rfl
            rw [Option.some.inj ((hheap _ _ hq).symm.trans hget)] at hkey
            exact compared_ne hoptions hbeq hkey
          rw [released_release, if_neg hne]
          exact hroom object hget hdep q object' (hheap q object' hq) hkey
        simp only [setOptions, hget, hbeq, Bool.false_eq_true, if_false, hrelease] at hstep
        rcases hm.get_spec sys hhost hoptions hroom' with ⟨m', q, hnew, hm'⟩ | ⟨m', hnew, hm'⟩
        · rw [References.release] at hnew
          simp only [hnew, Option.some.injEq] at hstep
          exact hstep ▸ hm'
        · rw [References.release] at hnew
          simp only [hnew, Option.some.injEq] at hstep
          exact hstep ▸ hm'
    · cases hstep

theorem stores_iff (h : Invariant s) {p n : Nat} :
    s.manager.Stores p n ↔ n + s.released p = s.acquired p ∧ 1 ≤ n := by
  rw [h.keys.stores_iff]
  constructor
  · rintro ⟨cls, a, c, hc, rfl, rfl⟩
    exact ⟨(h.stored hc).1, (h.stored hc).2.1⟩
  · rintro ⟨hn, hpos⟩
    obtain ⟨cls, a, c, hc, rfl⟩ := h.held p (by omega)
    have hstored := h.stored hc
    exact ⟨cls, a, c, hc, rfl, by omega⟩

theorem counted (h : Invariant s) : Counted s where
  refcount p n hn := h.stores_iff.1 hn
  stored p := by
    simp only [h.stores_iff]
    constructor
    · rintro ⟨n, hn, hpos⟩
      omega
    · intro hlt
      exact ⟨s.acquired p - s.released p, by omega, by omega⟩
  found e he a c hget := by
    have hc : s.manager.slot e.1.compared a = some c := by
      rw [slot, LessMap.under_of_mem h.keys.nodup he]
      exact hget
    obtain ⟨object, hobject, hcompared, hnumeric, -⟩ := h.object hc
    refine ⟨object, hobject, ?_⟩
    rw [LessMap.find_eq_under GuidanceMatrixKey.same_iff h.keys.numeric hnumeric, hcompared]
    exact LessMap.under_of_mem h.keys.nodup he
  shared e he hdep := by
    rw [← Std.ExtTreeMap.length_toList]
    have hslot : ∀ x ∈ e.2.toList, s.manager.slot e.1.compared x.1 = some x.2 := by
      intro x hx
      rw [slot, LessMap.under_of_mem h.keys.nodup he]
      exact StdMap.mem_toList.1 hx
    have hnodup := StdMap.nodup_toList e.2
    match hlist : e.2.toList with
    | [] => exact Nat.zero_le 1
    | [_] => exact le_refl 1
    | x :: y :: l =>
      rw [hlist] at hslot hnodup
      have hx := hslot x List.mem_cons_self
      have hy := hslot y (List.mem_cons_of_mem x List.mem_cons_self)
      have hdep' : e.1.compared.options.isSwarmDependent = false := hdep
      have hkey : x.1 = y.1 := h.single hdep' hx hy
      rw [hkey, hy] at hx
      have heq : x = y := Prod.ext hkey (Option.some.inj hx).symm
      exact absurd (heq ▸ List.mem_cons_self) (List.nodup_cons.1 hnodup).1
  release p hp := by
    obtain ⟨m, hrelease, hm, -⟩ := h.release_spec hp
    refine ⟨m, hrelease, fun n => ?_, fun q n hq => ?_⟩
    · have hstores : m.Stores p n ↔ _ := hm.stores_iff
      rw [released_release, if_pos rfl] at hstores
      rw [hstores, h.stores_iff]
      change _ = s.acquired p ∧ _ ↔ _
      omega
    · have hstores : m.Stores q n ↔ _ := hm.stores_iff
      rw [released_release, if_neg hq] at hstores
      rw [hstores, h.stores_iff]
      rfl

end Invariant

theorem invariant_init : Invariant ({} : References ISP) where
  keys := ⟨by simp, by simp⟩
  balance _ := le_refl 0
  held _ h := absurd h (Nat.lt_irrefl 0)
  stored h := by simp [PeeringGuidanceMatrixManager.slot, LessMap.under] at h
  object h := by simp [PeeringGuidanceMatrixManager.slot, LessMap.under] at h
  unique h := by simp [PeeringGuidanceMatrixManager.slot, LessMap.under] at h
  single _ h := by simp [PeeringGuidanceMatrixManager.slot, LessMap.under] at h

/-- In every run of calls on held matrices with plain host names, numeric options and no overflow,
the containers count the references. -/
theorem counted_of_run {calls : List (Call ISP)} {s : References ISP}
    (hr : Run step Ok ({} : References ISP) calls s) : Counted s :=
  (hr.invariant invariant_init fun _ _ _ h hok hstep => h.step hok hstep).counted

/-- An allocator that counts up, with libcurl. -/
def sampleSystem : System where
  alloc live := live.foldr max 0 + 1
  fresh := foldr_max_succ_notMem

/-- A plain host name. -/
def plainKey : GuidanceMatrixKey Nat := ⟨1, {}, ['e'], 80⟩

/-- A matrix with a second reference, of which one is released. -/
theorem counted_of_run_plain : ∃ s : References Nat,
    Run step Ok {} [.get sampleSystem plainKey, .addRef 2, .release 2] s ∧ Counted s := by
  obtain ⟨s₁, h₁⟩ : ∃ s₁, step ({} : References Nat) (.get sampleSystem plainKey) = some s₁ :=
    Option.isSome_iff_exists.1 (by decide +kernel)
  have hok : Ok ({} : References Nat) (.get sampleSystem plainKey) := by
    refine ⟨by decide, by decide, fun _ p object h => ?_⟩
    simp at h
  have hs₁ : ((step ({} : References Nat) (.get sampleSystem plainKey)).all fun s =>
      decide (s.acquired 2 - s.released 2 + 1 < 2 ^ 32) &&
        ((s.step (.addRef 2)).bind (·.step (.release 2))).isSome) = true := by decide +kernel
  rw [h₁, Option.all_some, Bool.and_eq_true, decide_eq_true_iff] at hs₁
  obtain ⟨s₃, h₃⟩ := Option.isSome_iff_exists.1 hs₁.2
  obtain ⟨s₂, h₂, h₃⟩ := Option.bind_eq_some_iff.1 h₃
  have hr : Run step Ok {} [.get sampleSystem plainKey, .addRef 2, .release 2] s₃ :=
    .cons hok h₁ (.cons hs₁.1 h₂ (.cons trivial h₃ (.nil s₃)))
  exact ⟨s₃, hr, counted_of_run hr⟩

/-- The same engine as a `host:port` text. -/
def colonKey : GuidanceMatrixKey Nat := ⟨1, {}, ['e', ':', '8', '0'], 0⟩

/-- The connection takes the text apart, and the matrix is not found any more. -/
theorem not_counted_colon : ¬ ∀ (calls : List (Call Nat)) (s : References Nat),
    Run step (fun _ _ => True) {} calls s → Counted s := by
  intro h
  obtain ⟨s, hs⟩ : ∃ s, step ({} : References Nat) (.get sampleSystem colonKey) = some s :=
    Option.isSome_iff_exists.1 (by decide +kernel)
  have hfail : ((step ({} : References Nat) (.get sampleSystem colonKey)).all fun s =>
      decide (s.released 2 < s.acquired 2) &&
        match s.manager.releaseGuidanceMatrix 2 with
        | .returned true _ => false
        | _ => true) = true := by decide +kernel
  rw [hs, Option.all_some, Bool.and_eq_true, decide_eq_true_iff] at hfail
  obtain ⟨m, hm, -⟩ := (h _ s (.cons trivial hs (.nil s))).release 2 hfail.1
  rw [hm] at hfail
  exact Bool.false_ne_true hfail.2

end References

end Guidance

end Alto
