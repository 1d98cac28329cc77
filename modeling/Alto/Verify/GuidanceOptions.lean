import Alto.Verify.GuidanceMatrix

/-!
# The options of a guidance matrix

Three comparisons read the options: `operator==`, `operator<`, and through it the order of the keys.
The first reads three fields and the second six of the eight. So the manager hands out a matrix with
other options than those that were asked for, if it takes one set for the other. `Labelled` says
which options the matrix of a container has.
-/

namespace Alto.Guidance

open Lib

variable {ISP : Type} [LinearOrder ISP]

/-! ## The comparisons -/

theorem double_eq_iff {x y : Double} : x.eq y = true ↔ x ≠ .nan ∧ x = y := by
  cases x <;> simp [Double.eq]

theorem not_lt_self (x : Double) : x.lt x = false := by
  cases x with
  | nan => rfl
  | inf s => cases s <;> rfl
  | fin q => simp [Double.lt]

namespace PeeringGuidanceMatrixOptions

variable {a b : PeeringGuidanceMatrixOptions}

/-- The fields that `operator==` does not read. -/
def Unread (a b : PeeringGuidanceMatrixOptions) : Prop :=
  a.useOptengineTTL = b.useOptengineTTL ∧ a.recomputeInterval = b.recomputeInterval ∧
    a.streamingdependentChannelrate = b.streamingdependentChannelrate ∧
    a.intrapidPct = b.intrapidPct ∧ a.intraispPct = b.intraispPct

theorem less_irrefl (a : PeeringGuidanceMatrixOptions) : a.less a = false := by
  simp [less, not_lt_self]

theorem beq_iff : a.beq b = true ↔
    a.opttype = b.opttype ∧ a.matchingUsesSwarmState = b.matchingUsesSwarmState ∧
      a.overloadProtectionFactor ≠ .nan ∧
      a.overloadProtectionFactor = b.overloadProtectionFactor := by
  simp only [beq, Bool.and_eq_true, beq_iff_eq, double_eq_iff, and_assoc]

/-- `operator==` means that both describe the same options, and that neither is less than the other,
exactly if it does not leave out a difference and the overload factor is not a NaN twice. -/
theorem beq_means_iff :
    (a.beq b = true ↔ (a.less b = false ∧ b.less a = false) ∧ a = b) ↔
      (a.beq b = true → a.Unread b) ∧ (a = b → a.overloadProtectionFactor ≠ .nan) := by
  have hsame : a.beq b = true → a.Unread b → a = b := by
    intro hbeq hunread
    obtain ⟨h₁, h₂, -, h₃⟩ := beq_iff.1 hbeq
    obtain ⟨h₄, h₅, h₆, h₇, h₈⟩ := hunread
    cases a
    cases b
    simp_all
  constructor
  · intro h
    refine ⟨fun hbeq => ?_, fun heq => ?_⟩
    · obtain ⟨-, rfl⟩ := h.1 hbeq
      exact ⟨rfl, rfl, rfl, rfl, rfl⟩
    · subst heq
      exact (beq_iff.1 (h.2 ⟨⟨less_irrefl a, less_irrefl a⟩, rfl⟩)).2.2.1
  · rintro ⟨hread, hnan⟩
    constructor
    · intro hbeq
      obtain rfl := hsame hbeq (hread hbeq)
      exact ⟨⟨less_irrefl a, less_irrefl a⟩, rfl⟩
    · rintro ⟨-, rfl⟩
      exact beq_iff.2 ⟨rfl, rfl, hnan rfl, rfl⟩

theorem eq_iff_of_compared (h : a.compared = b.compared) : a = b ↔
    a.useOptengineTTL = b.useOptengineTTL ∧ a.recomputeInterval = b.recomputeInterval := by
  cases a
  cases b
  simp only [compared, mk.injEq] at h
  simp [h]

end PeeringGuidanceMatrixOptions

open PeeringGuidanceMatrixOptions

/-- The address of the engine has no port in it, or one that can be read. -/
def GuidanceMatrixKey.Readable (key : GuidanceMatrixKey ISP) : Prop :=
  ':' ∈ key.optEngineAddr → (InetService.cast key.optEngineAddr).isSome

/-! ## What the containers hold -/

namespace PeeringGuidanceMatrixManager

variable {m m' : PeeringGuidanceMatrixManager ISP} {key cls : GuidanceMatrixKey ISP}
variable {a p : Nat} {c c' : GuidanceMatrixContainer} {object : PeeringGuidanceMatrix ISP}

/-- Every container has a matrix of its own, with the options under which it is stored as far as
their order reads them. -/
structure Labelled (m : PeeringGuidanceMatrixManager ISP) : Prop where
  keys : m.KeysOk
  object : ∀ {cls a c}, m.slot cls a = some c →
    ∃ object, m.heap[c.matrix]? = some object ∧ object.options.compared = cls.options
  numeric : ∀ {p : Nat} {object : PeeringGuidanceMatrix ISP}, m.heap[p]? = some object →
    object.options.Numeric
  unique : ∀ {cls a c cls' a' c'}, m.slot cls a = some c → m.slot cls' a' = some c' →
    c.matrix = c'.matrix → cls = cls' ∧ a = a'
  single : ∀ {cls a c a' c'}, cls.options.isSwarmDependent = false →
    m.slot cls a = some c → m.slot cls a' = some c' → a = a'

theorem labelled_init : Labelled ({} : PeeringGuidanceMatrixManager ISP) where
  keys := ⟨by simp, by simp⟩
  object h := by simp [slot, LessMap.under] at h
  numeric h := by simp at h
  unique h := by simp [slot, LessMap.under] at h
  single _ h := by simp [slot, LessMap.under] at h

namespace Labelled

/-- The containers of `m'` are containers of `m`, but for their counts, and keep their matrices. -/
theorem of_slots (h : Labelled m) (hkeys : m'.KeysOk)
    (hheap : ∀ (q : Nat) (object : PeeringGuidanceMatrix ISP), m'.heap[q]? = some object →
      m.heap[q]? = some object)
    (hslot : ∀ {cls a c}, m'.slot cls a = some c → ∃ d, m.slot cls a = some d ∧
      d.matrix = c.matrix ∧ m'.heap[c.matrix]? = m.heap[c.matrix]?) : Labelled m' where
  keys := hkeys
  object hc := by
    obtain ⟨d, hd, hmatrix, hkeep⟩ := hslot hc
    rw [hkeep, ← hmatrix]
    exact h.object hd
  numeric hp := h.numeric (hheap _ _ hp)
  unique hc hc' heq := by
    obtain ⟨d, hd, hmatrix, -⟩ := hslot hc
    obtain ⟨d', hd', hmatrix', -⟩ := hslot hc'
    exact h.unique hd hd' (by rw [hmatrix, hmatrix', heq])
  single hdep hc hc' := by
    obtain ⟨d, hd, -⟩ := hslot hc
    obtain ⟨d', hd', -⟩ := hslot hc'
    exact h.single hdep hd hd'

theorem addKey (h : Labelled m) (hkey : key.options.Numeric) :
    Labelled (m.addKey key) ∧ (m.addKey key).heap = m.heap := by
  obtain ⟨hkeys, hslot, -⟩ := h.keys.addKey hkey
  have hheap : (m.addKey key).heap = m.heap := by
    unfold PeeringGuidanceMatrixManager.addKey
    split <;> rfl
  refine ⟨h.of_slots hkeys (fun q object hq => by rwa [hheap] at hq) fun hc => ?_, hheap⟩
  rw [hslot] at hc
  exact ⟨_, hc, rfl, by rw [hheap]⟩

/-- A container gets another count. -/
theorem recount (h : Labelled m) (hkey : key.options.Numeric)
    (hc : m.slot key.compared a = some c) (hmatrix : c'.matrix = c.matrix) :
    Labelled (m.modify key (·.insert a c')) := by
  refine h.of_slots (h.keys.modify _) (fun _ _ hq => hq) fun hd => ?_
  rw [h.keys.slot_insert hkey (References.Invariant.isSome_under hc)] at hd
  split at hd
  · next heq =>
    obtain rfl := Option.some.inj hd
    refine ⟨c, ?_, hmatrix.symm, rfl⟩
    rw [← heq.1, ← heq.2]
    exact hc
  · exact ⟨_, hd, rfl, rfl⟩

/-- A container and its matrix leave. -/
theorem remove (h : Labelled m) (hkey : key.options.Numeric)
    (hc : m.slot key.compared a = some c) :
    Labelled { m.modify key (·.erase a) with heap := m.heap.erase c.matrix } := by
  have hkeys : (m.modify key (·.erase a)).KeysOk := h.keys.modify _
  refine h.of_slots ⟨hkeys.numeric, hkeys.nodup⟩ (fun q object hq => ?_) fun {cls' a' d} hd => ?_
  · change (m.heap.erase c.matrix)[q]? = some object at hq
    rw [StdMap.get_erase] at hq
    split at hq
    · cases hq
    · exact hq
  · change (m.modify key (·.erase a)).slot cls' a' = some d at hd
    rw [h.keys.slot_erase hkey] at hd
    split at hd
    · cases hd
    next hne =>
    refine ⟨d, hd, rfl, ?_⟩
    change (m.heap.erase c.matrix)[d.matrix]? = _
    rw [StdMap.get_erase, if_neg]
    exact fun heq => hne (h.unique hc hd heq)

/-- A container with a new matrix comes. -/
theorem create (h : Labelled m) (sys : System) (hkey : key.options.Numeric)
    (hin : (LessMap.under GuidanceMatrixKey.compared m.matrices key.compared).isSome)
    (hnew : (key.options.isSwarmDependent || (m.containers key).isEmpty) = true)
    {address matrix : Nat} (hmatrix : matrix = sys.alloc (address :: m.live))
    (hobject : object.options = key.options) :
    Labelled { m.modify key (·.insert address { matrix }) with
      heap := m.heap.insert matrix object } := by
  have hkeys : (m.modify key (·.insert address { matrix })).KeysOk := h.keys.modify _
  have hfresh : matrix ∉ m.heap := fun hmem =>
    sys.fresh _ (hmatrix ▸ List.mem_cons_of_mem address
      (List.mem_append_left _ (Std.ExtTreeMap.mem_keys.2 hmem)))
  have hother : ∀ {cls a c}, m.slot cls a = some c → c.matrix ≠ matrix := by
    rintro cls a c hc rfl
    obtain ⟨object', hget, -⟩ := h.object hc
    exact hfresh (StdMap.mem_iff_get.2 ⟨object', hget⟩)
  have hslot : ∀ {cls' a' d}, PeeringGuidanceMatrixManager.slot
      { m.modify key (·.insert address { matrix }) with heap := m.heap.insert matrix object }
        cls' a' = some d →
      (cls' = key.compared ∧ a' = address ∧ d = { matrix }) ∨ m.slot cls' a' = some d := by
    intro cls' a' d hd
    change (m.modify key (·.insert address { matrix })).slot cls' a' = some d at hd
    rw [h.keys.slot_insert hkey hin] at hd
    split at hd
    · next heq => exact .inl ⟨heq.1.symm, heq.2.symm, (Option.some.inj hd).symm⟩
    · exact .inr hd
  refine ⟨⟨hkeys.numeric, hkeys.nodup⟩, fun hd => ?_, fun {p object'} hp => ?_,
    fun hd hd' heq => ?_, fun hdep hd hd' => ?_⟩
  · rcases hslot hd with ⟨rfl, -, rfl⟩ | hd
    · refine ⟨object, ?_, by rw [hobject]; rfl⟩
      change (m.heap.insert matrix object)[matrix]? = _
      rw [StdMap.get_insert, if_pos rfl]
    · obtain ⟨object', hget, hoptions⟩ := h.object hd
      refine ⟨object', ?_, hoptions⟩
      change (m.heap.insert matrix object)[_]? = _
      rw [StdMap.get_insert, if_neg (Ne.symm (hother hd))]
      exact hget
  · change (m.heap.insert matrix object)[p]? = some object' at hp
    rw [StdMap.get_insert] at hp
    split at hp
    · rw [← Option.some.inj hp, hobject]
      exact hkey
    · exact h.numeric hp
  · rcases hslot hd with ⟨hcls, haddress, hdd⟩ | hold <;>
      rcases hslot hd' with ⟨hcls', haddress', hdd'⟩ | hold'
    · exact ⟨hcls.trans hcls'.symm, haddress.trans haddress'.symm⟩
    · rw [hdd] at heq
      exact absurd heq.symm (hother hold')
    · rw [hdd'] at heq
      exact absurd heq (hother hold)
    · exact h.unique hold hold' heq
  · have hnone : ∀ a', key.options.isSwarmDependent = false → m.slot key.compared a' = none := by
      intro a' hindependent
      rw [hindependent, Bool.false_or, Std.ExtTreeMap.isEmpty_iff] at hnew
      rw [← h.keys.containers hkey, hnew]
      exact Std.ExtTreeMap.getElem?_empty
    rcases hslot hd with ⟨hcls, haddress, -⟩ | hold <;>
      rcases hslot hd' with ⟨hcls', haddress', -⟩ | hold'
    · exact haddress.trans haddress'.symm
    · rw [hcls] at hold' hdep
      rw [hnone _ hdep] at hold'
      cases hold'
    · rw [hcls'] at hold hdep
      rw [hnone _ hdep] at hold
      cases hold
    · exact h.single hdep hold hold'

/-- The search under a key finds the container of a matrix, or the matrix has none there. -/
theorem search_eq_some (h : Labelled m) (hkey : key.options.Numeric)
    (hsearch : (m.containers key).search p = some (a, c)) :
    m.slot key.compared a = some c ∧ c.matrix = p := by
  have hmem := List.mem_of_find?_eq_some hsearch
  rw [StdMap.mem_toList, h.keys.containers hkey] at hmem
  exact ⟨hmem, by simpa using List.find?_some hsearch⟩

/-- What releasing a matrix does: nothing if it is not found under the key made from it, and
otherwise it changes no other class of keys. -/
theorem release_spec (h : Labelled m) (hobject : m.heap[p]? = some object) :
    ((m.containers object.key).search p = none ∧ m.releaseGuidanceMatrix p = .returned false m) ∨
    ∃ m', (m.containers object.key).search p ≠ none ∧
      m.releaseGuidanceMatrix p = .returned true m' ∧ Labelled m' ∧
      ∀ cls, cls ≠ object.key.compared → ∀ a, m'.slot cls a = m.slot cls a ∧
        ∀ c, m.slot cls a = some c → m'.heap[c.matrix]? = m.heap[c.matrix]? := by
  have hnumeric : object.key.options.Numeric := h.numeric hobject
  unfold releaseGuidanceMatrix
  rw [hobject]
  simp only
  cases hsearch : (m.containers object.key).search p with
  | none => exact .inl ⟨rfl, rfl⟩
  | some x =>
    obtain ⟨a, c⟩ := x
    obtain ⟨hc, rfl⟩ := h.search_eq_some hnumeric hsearch
    have hmatrix := References.Invariant.decRefCount_matrix c
    refine .inr ?_
    by_cases hreferenced : c.decRefCount.isReferenced = true
    · simp only [hreferenced, if_true]
      refine ⟨_, by simp, rfl, h.recount hnumeric hc hmatrix,
        fun cls hne a' => ⟨?_, fun _ _ => rfl⟩⟩
      rw [h.keys.slot_insert hnumeric (References.Invariant.isSome_under hc),
        if_neg fun heq => hne heq.1.symm]
    · simp only [hreferenced, Bool.false_eq_true, if_false, hmatrix]
      refine ⟨_, by simp, rfl, h.remove hnumeric hc, fun cls hne a' => ⟨?_, fun d hd => ?_⟩⟩
      · change (m.modify object.key (·.erase a)).slot cls a' = _
        rw [h.keys.slot_erase hnumeric, if_neg fun heq => hne heq.1.symm]
      · change (m.heap.erase c.matrix)[d.matrix]? = _
        rw [StdMap.get_erase, if_neg]
        exact fun heq => hne (h.unique hc hd heq).1.symm

theorem addRef_labelled (h : Labelled m) {b : Bool}
    (hadd : m.addGuidanceMatrixRef p = .returned b m') : Labelled m' := by
  unfold addGuidanceMatrixRef at hadd
  split at hadd
  · cases hadd
  · next object hobject =>
    have hnumeric : object.key.options.Numeric := h.numeric hobject
    split at hadd
    · cases hadd
      exact h
    · next a c hsearch =>
      cases hadd
      exact h.recount hnumeric (h.search_eq_some hnumeric hsearch).1 rfl

end Labelled

/-! ## The matrix that is handed out -/

/-- A matrix that would be shared under this key has its interval and its use of the TTL; and if
there is none then one can be created. -/
def Grants (m : PeeringGuidanceMatrixManager ISP) (key : GuidanceMatrixKey ISP) : Prop :=
  (key.options.isSwarmDependent = false →
    ∀ a c object, m.slot key.compared a = some c → m.heap[c.matrix]? = some object →
      object.options.useOptengineTTL = key.options.useOptengineTTL ∧
        object.options.recomputeInterval = key.options.recomputeInterval) ∧
  (key.options.isSwarmDependent = true ∨ (∀ a, m.slot key.compared a = none) → key.Readable)

/-- A call ends with a matrix that has these options, or with an exception. -/
def Honoured (options : PeeringGuidanceMatrixOptions) :
    Outcome (PeeringGuidanceMatrixManager ISP) (Option Nat) → Prop
  | .returned (some matrix) m =>
    ∃ object, m.heap[matrix]? = some object ∧ object.options = options
  | .returned none _ => False
  | .threw _ => True
  | .undefined => False

/-- The result of `getGuidanceMatrix`, which is never `NULL`. -/
def handedOut : Outcome (PeeringGuidanceMatrixManager ISP) Nat →
    Outcome (PeeringGuidanceMatrixManager ISP) (Option Nat)
  | .returned matrix m => .returned (some matrix) m
  | .threw m => .threw m
  | .undefined => .undefined

omit [LinearOrder ISP] in
/-- A new matrix has the options of its key. -/
theorem createMatrix_cases (sys : System) (key : GuidanceMatrixKey ISP) :
    (key.Readable ∧ (key.createMatrix sys = .threw () ∨
      ∃ object, key.createMatrix sys = .returned object () ∧ object.options = key.options)) ∨
    (¬ key.Readable ∧ key.createMatrix sys = .undefined) := by
  unfold GuidanceMatrixKey.createMatrix P4PProtocol.create GuidanceMatrixKey.Readable
  by_cases hempty : key.optEngineAddr = []
  · simp [hempty]
  have hnot : key.optEngineAddr.isEmpty = false := by simpa using hempty
  simp only [hnot, Bool.false_eq_true, if_false]
  by_cases hcolon : ':' ∈ key.optEngineAddr
  · cases hcast : InetService.cast key.optEngineAddr with
    | none => simp [hcolon]
    | some service => cases sys.curl <;> simp [hcolon]
  · cases sys.curl <;> simp [hcolon]

/-- A matrix with the options that were asked for is handed out exactly under `Grants`. -/
theorem Labelled.get_spec (h : Labelled m) (sys : System) (hkey : key.options.Numeric) :
    (Honoured key.options (handedOut (m.getGuidanceMatrix sys key)) ↔ Grants m key) ∧
    (∀ matrix m', m.getGuidanceMatrix sys key = .returned matrix m' → Labelled m') ∧
    ∀ m', m.getGuidanceMatrix sys key = .threw m' → Labelled m' := by
  obtain ⟨-, hslot, hin⟩ := h.keys.addKey hkey
  obtain ⟨hadd, hheap⟩ := h.addKey hkey
  have hcontainers := hadd.keys.containers hkey
  rw [hslot] at hcontainers
  by_cases hnew : (key.options.isSwarmDependent ||
      ((m.addKey key).containers key).isEmpty) = true
  · have hnone : key.options.isSwarmDependent = false → ∀ a, m.slot key.compared a = none := by
      intro hindependent a
      rw [hindependent, Bool.false_or, Std.ExtTreeMap.isEmpty_iff] at hnew
      rw [← hcontainers, hnew]
      exact Std.ExtTreeMap.getElem?_empty
    have hgrants : Grants m key ↔ key.Readable := by
      constructor
      · intro hgrants
        refine hgrants.2 ?_
        cases hdep : key.options.isSwarmDependent with
        | true => exact .inl rfl
        | false => exact .inr (hnone hdep)
      · refine fun hread => ⟨fun hindependent a c object hc => ?_, fun _ => hread⟩
        rw [hnone hindependent] at hc
        cases hc
    rw [hgrants]
    simp only [getGuidanceMatrix, hnew, if_true]
    rcases createMatrix_cases sys key with
      ⟨hread, hthrow | ⟨object, hcreate, hoptions⟩⟩ | ⟨hread, hundefined⟩
    · simp only [hthrow, handedOut, Honoured, hread]
      refine ⟨trivial, fun _ _ hm => (by cases hm), fun m' hm => ?_⟩
      cases hm
      exact hadd
    · simp only [hcreate, handedOut, Honoured, hread, iff_true]
      refine ⟨⟨object, ?_, hoptions⟩, fun matrix m' hm => ?_, fun _ hm => (by cases hm)⟩
      · rw [StdMap.get_insert, if_pos rfl]
      · cases hm
        exact hadd.create sys hkey hin hnew rfl hoptions
    · simp only [hundefined, handedOut, Honoured, hread]
      exact ⟨trivial, fun _ _ hm => (by cases hm), fun _ hm => (by cases hm)⟩
  · obtain ⟨hindependent, hnonempty⟩ : key.options.isSwarmDependent = false ∧
        ((m.addKey key).containers key).isEmpty = false := by simpa using hnew
    cases hlist : ((m.addKey key).containers key).toList with
    | nil =>
      rw [← Std.ExtTreeMap.isEmpty_toList, hlist] at hnonempty
      cases hnonempty
    | cons x xs =>
      obtain ⟨a, c⟩ := x
      have hc : (a, c) ∈ ((m.addKey key).containers key).toList := hlist ▸ List.mem_cons_self
      rw [StdMap.mem_toList, hcontainers] at hc
      have hc' : (m.addKey key).slot key.compared a = some c := by rw [hslot]; exact hc
      obtain ⟨object, hobject, hcompared⟩ := h.object hc
      simp only [getGuidanceMatrix, hnew, hlist, Bool.false_eq_true, if_false]
      refine ⟨?_, fun matrix m' hm => ?_, fun _ hm => (by cases hm)⟩
      · have heq := eq_iff_of_compared hcompared
        constructor
        · rintro ⟨object', hobject', hoptions⟩
          change (m.addKey key).heap[c.matrix]? = some object' at hobject'
          rw [hheap] at hobject'
          refine ⟨fun _ a' c' object'' hc'' hobject'' => ?_, fun hnone => ?_⟩
          · obtain rfl := h.single (show key.compared.options.isSwarmDependent = false from
              hindependent) hc hc''
            obtain rfl := Option.some.inj (hc.symm.trans hc'')
            obtain rfl := Option.some.inj (hobject'.symm.trans hobject'')
            obtain rfl := Option.some.inj (hobject.symm.trans hobject')
            exact heq.1 hoptions
          · rcases hnone with hdep | hnone
            · cases hindependent.symm.trans hdep
            · cases hc.symm.trans (hnone a)
        · intro hgrants
          refine ⟨object, ?_, heq.2 (hgrants.1 hindependent a c object hc hobject)⟩
          change (m.addKey key).heap[c.matrix]? = some object
          rw [hheap]
          exact hobject
      · cases hm
        exact hadd.recount hkey hc' rfl

/-- What `setOptions` needs: if `operator==` holds then the options are the same, and otherwise the
matrix is found under the key made from it and the new key is granted. -/
def Adjusts (m : PeeringGuidanceMatrixManager ISP) (p : Nat) (object : PeeringGuidanceMatrix ISP)
    (options : PeeringGuidanceMatrixOptions) : Prop :=
  if options.beq object.options then options.Unread object.options
  else (m.containers object.key).search p ≠ none ∧ Grants m { object.key with options }

theorem Labelled.setOptions_spec (h : Labelled m) (sys : System)
    (hobject : m.heap[p]? = some object) {options : PeeringGuidanceMatrixOptions} (hoptions : options.Numeric) :
    (Honoured options (m.setOptions sys p options) ↔ Adjusts m p object options) ∧
    (∀ r m', m.setOptions sys p options = .returned r m' → Labelled m') ∧
    ∀ m', m.setOptions sys p options = .threw m' → Labelled m' := by
  rw [setOptions, hobject, Adjusts]
  simp only
  cases hbeq : options.beq object.options with
  | true =>
    simp only [if_true]
    refine ⟨?_, fun r m' hm => ?_, fun _ hm => (by cases hm)⟩
    · obtain ⟨h₁, h₂, -, h₃⟩ := beq_iff.1 hbeq
      constructor
      · rintro ⟨object', hobject', heq⟩
        obtain rfl := Option.some.inj (hobject.symm.trans hobject')
        rw [heq]
        exact ⟨rfl, rfl, rfl, rfl, rfl⟩
      · rintro ⟨h₄, h₅, h₆, h₇, h₈⟩
        refine ⟨object, hobject, ?_⟩
        cases hobj : object.options
        cases options
        simp_all
    · cases hm
      exact h
  | false =>
    simp only [Bool.false_eq_true, if_false]
    rcases h.release_spec hobject with ⟨hnone, hrelease⟩ | ⟨m₁, hfound, hrelease, h₁, hkeep⟩
    · simp only [hrelease, hnone, ne_eq, not_true_eq_false, false_and, iff_false]
      refine ⟨fun hno => hno, fun r m' hm => ?_, fun _ hm => (by cases hm)⟩
      cases hm
      exact h
    · have hne : GuidanceMatrixKey.compared { object.key with options } ≠ object.key.compared :=
        fun heq => References.Invariant.compared_ne hoptions hbeq heq.symm
      have hgrants : Grants m₁ { object.key with options } ↔
          Grants m { object.key with options } := by
        unfold Grants
        refine and_congr (imp_congr_right fun _ => forall_congr' fun a => forall_congr' fun c => ?_)
          ?_
        · rw [(hkeep _ hne a).1]
          constructor
          · intro hall object' hc hobject'
            exact hall object' hc (by rwa [(hkeep _ hne a).2 c hc])
          · intro hall object' hc hobject'
            exact hall object' hc (by rwa [(hkeep _ hne a).2 c hc] at hobject')
        · have hnone : (∀ a, m₁.slot (GuidanceMatrixKey.compared { object.key with options }) a =
              none) ↔
              ∀ a, m.slot (GuidanceMatrixKey.compared { object.key with options }) a = none :=
            forall_congr' fun a => by rw [(hkeep _ hne a).1]
          rw [hnone]
      have hget := h₁.get_spec sys
        (show GuidanceMatrixKey.options { object.key with options } |>.Numeric from hoptions)
      rw [hgrants] at hget
      simp only [hrelease, hfound, ne_eq, not_false_eq_true, true_and]
      cases hresult : m₁.getGuidanceMatrix sys { object.key with options } with
      | returned matrix m₂ =>
        rw [hresult] at hget
        refine ⟨hget.1, fun r m' hm => ?_, fun _ hm => (by cases hm)⟩
        cases hm
        exact hget.2.1 matrix _ rfl
      | threw m₂ =>
        rw [hresult] at hget
        refine ⟨hget.1, fun r _ hm => (by cases hm), fun m' hm => ?_⟩
        cases hm
        exact hget.2.2 _ rfl
      | undefined =>
        rw [hresult] at hget
        exact ⟨hget.1, fun _ _ hm => (by cases hm), fun _ hm => (by cases hm)⟩

end PeeringGuidanceMatrixManager

/-! ## Runs -/

namespace References

open PeeringGuidanceMatrixManager

variable {s s' : References ISP}

/-- No option of a call is a NaN, for which the order of a `std::map` has no meaning. -/
def Numbers (_ : References ISP) : Call ISP → Prop
  | .get _ key => key.options.Numeric
  | .setOptions _ _ options => options.Numeric
  | _ => True

theorem labelled_step (h : Labelled s.manager) {call : Call ISP} (hok : s.Numbers call)
    (hstep : s.step call = some s') : Labelled s'.manager := by
  cases call with
  | get sys key =>
    simp only [References.step] at hstep
    split at hstep
    · next matrix m hget =>
      cases hstep
      exact (h.get_spec sys hok).2.1 matrix _ hget
    · next m hget =>
      cases hstep
      exact (h.get_spec sys hok).2.2 _ hget
    · cases hstep
  | addRef matrix =>
    simp only [References.step] at hstep
    split at hstep
    · split at hstep
      · next hadd =>
        cases hstep
        exact h.addRef_labelled hadd
      · next hadd =>
        cases hstep
        exact h.addRef_labelled hadd
      · next m hadd =>
        cases hstep
        unfold addGuidanceMatrixRef at hadd
        split at hadd
        · cases hadd
        · split at hadd <;> cases hadd
      · cases hstep
    · cases hstep
  | release matrix =>
    simp only [References.step] at hstep
    split at hstep
    · cases hobject : s.manager.heap[matrix]? with
      | none => simp [releaseGuidanceMatrix, hobject] at hstep
      | some object =>
        rcases h.release_spec hobject with ⟨-, hrelease⟩ | ⟨m₁, -, hrelease, h₁, -⟩
        · simp only [hrelease] at hstep
          cases hstep
          exact h
        · simp only [hrelease] at hstep
          cases hstep
          exact h₁
    · cases hstep
  | setOptions sys matrix options =>
    simp only [References.step] at hstep
    split at hstep
    · cases hobject : s.manager.heap[matrix]? with
      | none => simp [setOptions, hobject] at hstep
      | some object =>
        split at hstep
        · next hset =>
          cases hstep
          exact (h.setOptions_spec sys hobject hok).2.1 _ _ hset
        · next hset =>
          cases hstep
          exact (h.setOptions_spec sys hobject hok).2.1 _ _ hset
        · next hset =>
          cases hstep
          exact (h.setOptions_spec sys hobject hok).2.2 _ hset
        · cases hstep
    · cases hstep

/-- In every state that calls without NaN reach, the matrix that `getGuidanceMatrix` hands out has
the options of the key exactly if `Grants` holds, and the one of `setOptions` exactly if `Adjusts`
does. And `operator==` is equality of all fields exactly as far as it overlooks no difference. -/
theorem options_honoured_iff {calls : List (Call ISP)}
    (hr : Run step Numbers ({} : References ISP) calls s) :
    (∀ sys key, key.options.Numeric →
      (Honoured key.options (handedOut (s.manager.getGuidanceMatrix sys key)) ↔
        Grants s.manager key)) ∧
    (∀ sys p object options, s.manager.heap[p]? = some object → options.Numeric →
      (Honoured options (s.manager.setOptions sys p options) ↔
        Adjusts s.manager p object options)) ∧
    ∀ a b : PeeringGuidanceMatrixOptions,
      (a.beq b = true ↔ (a.less b = false ∧ b.less a = false) ∧ a = b) ↔
        (a.beq b = true → a.Unread b) ∧ (a = b → a.overloadProtectionFactor ≠ .nan) := by
  have h : Labelled s.manager :=
    hr.invariant labelled_init fun s call s' h hok hstep => labelled_step h hok hstep
  refine ⟨fun sys key hkey => (h.get_spec sys hkey).1, ?_, fun a b =>
    beq_means_iff⟩
  exact fun sys p object options hobject hoptions =>
    (h.setOptions_spec sys hobject hoptions).1

/-- The only call is for a plain host name. -/
theorem options_honoured_iff_plain : ∃ s : References Nat,
    Run step Numbers {} [.get sampleSystem plainKey] s ∧
    (∀ sys key, key.options.Numeric →
      (Honoured key.options (handedOut (s.manager.getGuidanceMatrix sys key)) ↔
        Grants s.manager key)) ∧
    (∀ sys p object options, s.manager.heap[p]? = some object → options.Numeric →
      (Honoured options (s.manager.setOptions sys p options) ↔
        Adjusts s.manager p object options)) ∧
    ∀ a b : PeeringGuidanceMatrixOptions,
      (a.beq b = true ↔ (a.less b = false ∧ b.less a = false) ∧ a = b) ↔
        (a.beq b = true → a.Unread b) ∧ (a = b → a.overloadProtectionFactor ≠ .nan) := by
  obtain ⟨s, hs⟩ : ∃ s, step ({} : References Nat) (.get sampleSystem plainKey) = some s :=
    Option.isSome_iff_exists.1 (by decide +kernel)
  have hok : Numbers ({} : References Nat) (.get sampleSystem plainKey) :=
    show plainKey.options.Numeric by decide
  exact ⟨s, .cons hok hs (.nil s), options_honoured_iff (.cons hok hs (.nil s))⟩

/-- A matrix of the default options gets another channel rate: nothing has changed, as `operator==`
has it. -/
theorem not_honoured_rate : ¬ ∀ (calls : List (Call Nat)) (s : References Nat),
    Run step Numbers {} calls s → ∀ sys p object options, s.manager.heap[p]? = some object →
      options.Numeric → Honoured options (s.manager.setOptions sys p options) := by
  intro h
  obtain ⟨s, hs⟩ : ∃ s, step ({} : References Nat) (.get sampleSystem plainKey) = some s :=
    Option.isSome_iff_exists.1 (by decide +kernel)
  have hheap : ((step ({} : References Nat) (.get sampleSystem plainKey)).all fun s =>
      decide (s.manager.heap[2]? = some ⟨⟨['e'], 80⟩, 1, {}⟩)) = true := by decide +kernel
  rw [hs, Option.all_some, decide_eq_true_iff] at hheap
  have hok : Numbers ({} : References Nat) (.get sampleSystem plainKey) :=
    show plainKey.options.Numeric by decide
  have hbeq : PeeringGuidanceMatrixOptions.beq { streamingdependentChannelrate := 96000 } {} =
      true := by decide +kernel
  obtain ⟨object, hobject, heq⟩ : Honoured { streamingdependentChannelrate := 96000 }
      (.returned (some 2) s.manager) := by
    have hset := h _ s (.cons hok hs (.nil s)) sampleSystem 2 _
      { streamingdependentChannelrate := 96000 } hheap (by decide)
    simp only [setOptions, hheap, hbeq, if_true] at hset
    exact hset
  rw [hheap, Option.some.injEq] at hobject
  rw [← hobject] at heq
  exact absurd heq (by decide +kernel)

end References

end Alto.Guidance
