import Mathlib
import Alto.Verify.AltoMaps
import Alto.Verify.PIDMatrix
import Alto.Verify.ViewObjects

/-!
# The numbers in cost maps

In the views that administrators reach with non-negative costs, the PIDs of the link matrix are
those of the aggregation, and all costs and weights are numbers. A cost map has one entry for each
pair of PIDs with a link pDistance. Its numbers are those of the costs, up to 0.05, as long as ten
times the cost fits into an `int` and a number of three digits is that near to the cost, for the text
has no more digits.
-/

namespace Alto

open Lib

/-! ## Costs in matrices -/

/-- A cost that an administrator can store. -/
def Double.IsCost (x : Double) : Prop := ∃ q : ℚ, 0 ≤ q ∧ x = .fin q

namespace PIDMatrix

variable {m : PIDMatrix} {S : StdSet PID} {P : Double → Prop} {pid src dst : PID} {v : Double}

/-- All assigned entries have `P`. -/
def Entries (P : Double → Prop) (m : PIDMatrix) : Prop :=
  ∀ (ij : Nat ×ₗ Nat) (x : Double), m.matrix[ij]? = some x → P x

theorem entries_empty : Entries P empty := by
  intro ij x h
  simp [empty] at h

theorem Entries.elem (h : Entries P m) {i j : Nat} (hne : m.elem i j ≠ .nan) : P (m.elem i j) := by
  unfold PIDMatrix.elem at hne ⊢
  cases hx : m.matrix[toLex (i, j)]? with
  | none =>
    rw [hx] at hne
    exact absurd rfl hne
  | some x => exact h _ x hx

theorem Entries.getByPid (h : Entries P m) (hv : P v) : P (m.getByPid src dst v) := by
  unfold PIDMatrix.getByPid
  split
  · next s d hs hd =>
    unfold get
    split
    · exact hv
    · next hne => exact h.elem hne
  · exact hv

theorem Entries.setByPid (h : Entries P m) (hv : P v) : Entries P (m.setByPid src dst v).2 := by
  unfold PIDMatrix.setByPid
  split
  · intro ij x hx
    simp only [set, StdMap.get_insert] at hx
    split at hx
    · cases hx
      exact hv
    · exact h ij x hx
  · exact h

theorem Entries.setPids (h : Entries P m) : Entries P (m.setPids S) := by
  have hloop : ∀ (ijs : List (Nat × Nat)) (new : StdMap (Nat ×ₗ Nat) Double),
      (∀ (ij : Nat ×ₗ Nat) (x : Double), new[ij]? = some x → P x) →
      ∀ (ij : Nat ×ₗ Nat) (x : Double),
        (ijs.foldl (m.copyEntry (indexPids S)) new)[ij]? = some x → P x := by
    intro ijs
    induction ijs with
    | nil => exact fun new hnew => hnew
    | cons ij ijs ih =>
      intro new hnew
      refine ih _ ?_
      intro ij' x hx
      unfold copyEntry at hx
      split at hx
      · exact hnew ij' x hx
      · next hne =>
        split at hx
        · rw [StdMap.get_insert] at hx
          split at hx
          · cases hx
            exact h.elem hne
          · exact hnew ij' x hx
        · exact hnew ij' x hx
  exact hloop _ ∅ fun ij x hx => by simp at hx

theorem Entries.addPid (h : Entries P m) : Entries P (m.addPid pid).2 := by
  unfold PIDMatrix.addPid
  split
  · exact h
  · exact h.setPids

theorem Entries.removePid (h : Entries P m) : Entries P (m.removePid pid).2 := by
  unfold PIDMatrix.removePid
  split
  · exact h
  · exact h.setPids

/-! ## The PIDs of a matrix -/

theorem mem_pidSet : pid ∈ m.pidSet ↔ (m.find pid).isSome = true := by
  have hset : m.pidSet = (m.pids.map (·.pid)).foldl (fun s pid => s.insert pid) ∅ := by
    rw [List.foldl_map]
    rfl
  rw [hset, StdSet.mem_foldl_insert, find, List.find?_isSome]
  simp

theorem find_setPids : ((m.setPids S).find pid).isSome = true ↔ pid ∈ S := by
  have h : (m.setPids S).HasPids S := rfl
  by_cases hpid : pid ∈ S
  · obtain ⟨i, hi, rfl⟩ := exists_index hpid
    simp [h.find hi, hpid]
  · simp [h.find_none hpid, hpid]

theorem find_addPid {p : PID} : ((m.addPid pid).2.find p).isSome = true ↔
    p = pid ∨ (m.find p).isSome = true := by
  unfold addPid
  split
  · next hsome =>
    refine (or_iff_right_of_imp ?_).symm
    rintro rfl
    rw [hsome]
    rfl
  · rw [find_setPids, ← mem_pidSet, StdSet.mem_insert, eq_comm]

theorem find_removePid {p : PID} : ((m.removePid pid).2.find p).isSome = true ↔
    p ≠ pid ∧ (m.find p).isSome = true := by
  unfold removePid
  split
  · next hnone =>
    refine (and_iff_right_of_imp ?_).symm
    rintro hsome rfl
    rw [hnone] at hsome
    cases hsome
  · rw [find_setPids, ← mem_pidSet, StdSet.mem_erase, ne_comm]

theorem find_setByPid {p : PID} : (m.setByPid src dst v).2.find p = m.find p := by
  unfold setByPid
  split <;> rfl

end PIDMatrix

/-- The weights of a routing are costs. -/
def PIDRouting.Weighted (r : PIDRouting) : Prop :=
  r.defaultWeight.IsCost ∧ r.weights.Entries Double.IsCost

namespace PIDRouting

variable {r r' : PIDRouting} {pid src dst : PID} {v : Double}

theorem weighted_new (h : v.IsCost) : (new v).Weighted := ⟨h, PIDMatrix.entries_empty⟩

theorem Weighted.getWeight (h : r.Weighted) : (r.getWeight src dst).IsCost := h.2.getByPid h.1

theorem Weighted.setWeight (h : r.Weighted) (hv : v.IsCost) :
    (r.setWeight src dst v).2.Weighted :=
  ⟨h.1, h.2.setByPid hv⟩

theorem Weighted.addPid (h : r.Weighted) : (r.addPid pid).Weighted := by
  unfold PIDRouting.addPid
  split
  · exact h
  · exact ⟨h.1, h.2.addPid⟩

theorem removeStaticRoutePtrs_weights {itr : RoutePtr}
    (h : r.removeStaticRoutePtrs itr = some r') :
    r'.defaultWeight = r.defaultWeight ∧ r'.weights = r.weights := by
  unfold removeStaticRoutePtrs at h
  split at h
  · cases h
  · split at h
    · cases h
    · cases h
      exact ⟨rfl, rfl⟩

theorem Weighted.removePid (h : r.Weighted) (hr : r.removePid pid = some r') : r'.Weighted := by
  unfold PIDRouting.removePid at hr
  split at hr
  · next hmode =>
    clear hmode
    generalize r.appendStaticRoutePtrs pid = ptrs at hr
    induction ptrs generalizing r with
    | nil =>
      cases hr
      exact h
    | cons ptr ptrs ih =>
      obtain ⟨r₁, hr₁, hr⟩ := Option.bind_eq_some_iff.1 ((List.foldlM_cons ..).symm.trans hr)
      obtain ⟨hd, hw⟩ := removeStaticRoutePtrs_weights hr₁
      exact ih ⟨hd ▸ h.1, hw ▸ h.2⟩ hr
  · cases hr
    exact ⟨h.1, h.2.removePid⟩

end PIDRouting

/-! ## The PIDs of an aggregation -/

namespace PIDAggregation

variable {agg : PIDAggregation} {pid p : PID} {name : String} {vertices : StdSet String}

theorem byPid_insert {rs : PIDRecords} {r : PIDRecord} (hpid : rs.byPid[pid]? = none)
    (hname : rs.findName r.name = none) :
    (rs.insert pid r).byPid[p]? = if pid = p then some r else rs.byPid[p]? := by
  simp [PIDRecords.insert, hpid, hname, StdMap.get_insert]

theorem has_add (h : (agg.add name pid vertices).1 = true) :
    (agg.add name pid vertices).2.has p = true ↔ p = pid ∨ agg.has p = true := by
  unfold add at h ⊢
  split at h
  · cases h
  · next hpid =>
    split at h
    · cases h
    · next hname =>
      rw [if_neg hpid, if_neg hname]
      have hpid' : agg.pidRecords.byPid[pid]? = none := by simpa [has] using hpid
      have hname' : agg.pidRecords.findName (PIDRecord.mk name vertices).name = none := by
        simpa [hasName] using hname
      simp only [has, byPid_insert hpid' hname']
      by_cases hp : pid = p
      · simp [hp]
      · simp [hp, Ne.symm hp]

theorem has_remove : (agg.remove pid).2.has p = true ↔ p ≠ pid ∧ agg.has p = true := by
  unfold remove
  split
  · simp only [has, PIDRecords.erase, StdMap.get_erase]
    by_cases hp : pid = p
    · simp [hp]
    · simp [hp, Ne.symm hp]
  · next hpid =>
    refine (and_iff_right_of_imp ?_).symm
    rintro h rfl
    exact hpid h

theorem has_updateVertices {f : StdSet String → StdSet String} :
    (agg.updateVertices pid f).2.has p = agg.has p := by
  unfold updateVertices
  split
  · rfl
  · next r hr =>
    have herase : ∀ q : PID, (agg.pidRecords.erase pid).byPid[q]? =
        if pid = q then none else agg.pidRecords.byPid[q]? := fun q => by
      simp [PIDRecords.erase, StdMap.get_erase]
    have hpid : (agg.pidRecords.erase pid).byPid[pid]? = none := by rw [herase, if_pos rfl]
    have hname : (agg.pidRecords.erase pid).findName (PIDRecord.mk r.name (f r.vertices)).name =
        none := by
      refine PIDRecords.findName_eq_none.2 fun q r' hq hname => ?_
      rw [herase] at hq
      split at hq
      · cases hq
      · next hne => exact hne (agg.pidRecords.uniqueName pid q r r' hr hq hname.symm)
    simp only [has, byPid_insert hpid hname, herase]
    by_cases hp : pid = p
    · subst hp
      simp [hr]
    · simp [hp]

end PIDAggregation

/-! ## The costs of a view -/

/-- The costs and weights that administrators store are non-negative numbers. -/
def Action.Costed : Action → Prop
  | .viewSetLinkCost _ _ cost => cost.IsCost
  | .viewSetLinkWeight _ _ weight => weight.IsCost
  | _ => True

/-- The PIDs of the link matrix are in the aggregation, and all costs are numbers. -/
structure ViewObjects.Costed (v : ViewObjects) : Prop where
  linked : ∀ agg link, v .aggregation = some (.aggregation agg) →
    v .linkPDistances = some (.matrix link) →
    ∀ pid, (link.find pid).isSome = true → agg.has pid = true
  link : ∀ link, v .linkPDistances = some (.matrix link) → link.Entries Double.IsCost
  routing : ∀ r, v .intraRouting = some (.routing r) → r.Weighted

/-- The second object has the PIDs of the first one, and costs if that one has. -/
def Payload.Keeps (x : Payload) : Payload → Prop
  | .aggregation agg' => ∃ agg, x = .aggregation agg ∧ ∀ pid, agg'.has pid = agg.has pid
  | .matrix m' => ∃ m, x = .matrix m ∧ (∀ pid, m'.find pid = m.find pid) ∧
    (m.Entries Double.IsCost → m'.Entries Double.IsCost)
  | .routing r' => ∃ r, x = .routing r ∧ (r.Weighted → r'.Weighted)
  | _ => True

theorem Payload.keeps_copyOf (env : Env) (x : Payload) : x.Keeps (x.copyOf env) := by
  cases x with
  | aggregation agg => exact ⟨agg, rfl, fun _ => rfl⟩
  | matrix m => exact ⟨m, rfl, fun _ => rfl, id⟩
  | routing r => exact ⟨r, rfl, id⟩
  | _ => trivial

theorem Payload.keeps_of_getters {x y : Payload} (h : y.getters = x.getters) : x.Keeps y := by
  cases y with
  | aggregation agg =>
    cases x <;> cases h
    exact ⟨agg, rfl, fun _ => rfl⟩
  | matrix m =>
    cases x <;> cases h
    exact ⟨m, rfl, fun _ => rfl, id⟩
  | routing r =>
    cases x with
    | routing r' =>
      injection h with h
      injection h with hdefault _ _ _ hweights
      exact ⟨r', rfl, fun hr => ⟨hdefault ▸ hr.1, hweights ▸ hr.2⟩⟩
    | _ => cases h
  | _ => trivial

theorem Payload.keeps_refl (x : Payload) : x.Keeps x := keeps_of_getters rfl

namespace ViewObjects

variable {env : Env} {v w : ViewObjects}

theorem Costed.keeps (h : v.Costed) (hw : ∀ c y, w c = some y → ∃ x, v c = some x ∧ x.Keeps y) :
    w.Costed where
  linked := by
    intro agg' link' hagg hlink pid hpid
    obtain ⟨-, hx, agg, rfl, hhas⟩ := hw _ _ hagg
    obtain ⟨-, hy, link, rfl, hfind, -⟩ := hw _ _ hlink
    rw [hhas]
    exact h.linked agg link hx hy pid (hfind pid ▸ hpid)
  link := by
    intro link' hlink
    obtain ⟨-, hy, link, rfl, -, hcosts⟩ := hw _ _ hlink
    exact hcosts (h.link link hy)
  routing := by
    intro r' hr
    obtain ⟨-, hy, r, rfl, hcosts⟩ := hw _ _ hr
    exact hcosts (h.routing r hy)

theorem costed_none : Costed fun _ => none := ⟨nofun, nofun, nofun⟩

theorem costed_new : Costed newObjects where
  linked := by
    intro agg link hagg hlink pid hpid
    cases hlink
    cases hpid
  link := by
    rintro link ⟨⟩
    exact PIDMatrix.entries_empty
  routing := by
    rintro r ⟨⟩
    exact PIDRouting.weighted_new ⟨1, by decide, rfl⟩

/-- An action on a child keeps the PIDs and the costs. -/
theorem keeps_child {T : ObjTree Payload} {i : Nat} {a : Action} {c : ViewChild} {x : Payload}
    {y : Bool × Payload} (h : Action.OnChild env T i a c x y) (ha : a.Costed) : x.Keeps y.2 := by
  cases h with
  | addPrefixes | deletePrefixes | clearPrefixes => trivial
  | @addNodes _ _ p nodes agg hp h => exact ⟨agg, rfl, fun _ => PIDAggregation.has_updateVertices⟩
  | @deleteNodes _ _ p nodes agg hp h => exact ⟨agg, rfl, fun _ => PIDAggregation.has_updateVertices⟩
  | @clearNodes _ _ p agg hp h => exact ⟨agg, rfl, fun _ => PIDAggregation.has_updateVertices⟩
  | @addLink _ link _ _ p q agg hp hq h =>
    refine ⟨agg, rfl, fun _ => ?_⟩
    unfold PIDAggregation.defineLink
    split <;> rfl
  | @deleteLink _ link agg h =>
    refine ⟨agg, rfl, fun _ => ?_⟩
    unfold PIDAggregation.undefineLink
    split <;> rfl
  | @setCost _ _ cost p q m h =>
    exact ⟨m, rfl, fun _ => PIDMatrix.find_setByPid, fun hm => hm.setByPid ha⟩
  | @setWeight _ _ weight p q r h => exact ⟨r, rfl, fun hr => hr.setWeight ha⟩

theorem Costed.sets {agg : PIDAggregation} {r : PIDRouting} {link : PIDMatrix}
    (hw : SetsParts v w agg r link)
    (hlinked : ∀ pid, (link.find pid).isSome = true → agg.has pid = true)
    (hlink : link.Entries Double.IsCost) (hr : r.Weighted) : w.Costed where
  linked := by
    intro agg' link' hagg' hlink'
    rw [hw.aggregation] at hagg'
    rw [hw.link] at hlink'
    cases hagg'
    cases hlink'
    exact hlinked
  link := by
    intro link' hlink'
    rw [hw.link] at hlink'
    cases hlink'
    exact hlink
  routing := by
    intro r' hr'
    rw [hw.routing] at hr'
    cases hr'
    exact hr

/-- Every step of a view keeps its PIDs and costs in order. -/
theorem Costed.step (h : ViewStep env (fun _ => Action.Costed) v w) (hv : v.Costed) : w.Costed := by
  cases h with
  | refs h =>
    refine hv.keeps fun c y hy => ?_
    rcases h c with heq | ⟨x, hx, hcopy⟩
    · exact ⟨y, heq ▸ hy, y.keeps_refl⟩
    · rw [hcopy] at hy
      cases hy
      exact ⟨x, hx, x.keeps_copyOf env⟩
  | copied h =>
    refine hv.keeps fun c y hy => ?_
    have hc := h c
    rw [hy] at hc
    obtain ⟨x, hx, hget⟩ := Option.map_eq_some_iff.1 hc.symm
    exact ⟨x, hx, Payload.keeps_of_getters hget.symm⟩
  | install => exact costed_new
  | remove => exact costed_none
  | update h =>
    refine ⟨fun agg link hagg hlink => ?_, fun link hlink => ?_, fun r hr => ?_⟩
    · rw [h _ (by decide) (by decide)] at hagg hlink
      exact hv.linked agg link hagg hlink
    · rw [h _ (by decide) (by decide)] at hlink
      exact hv.link link hlink
    · rw [h _ (by decide) (by decide)] at hr
      exact hv.routing r hr
  | addPID hagg hr hlink h hw =>
    refine Costed.sets hw (fun pid hpid => ?_) (hv.link _ hlink).addPid (hv.routing _ hr).addPid
    exact (PIDAggregation.has_add h).2
      ((PIDMatrix.find_addPid.1 hpid).imp_right (hv.linked _ _ hagg hlink pid))
  | deletePID hagg hr hlink h hw =>
    refine Costed.sets hw (fun pid hpid => ?_) (hv.link _ hlink).removePid
      ((hv.routing _ hr).removePid h)
    exact PIDAggregation.has_remove.2
      ((PIDMatrix.find_removePid.1 hpid).imp_right (hv.linked _ _ hagg hlink pid))
  | @child _ _ _ a c x y ha hT hx h =>
    refine hv.keeps fun d z hz => ?_
    by_cases hd : d = c
    · subst hd
      rw [Function.update_self] at hz
      cases hz
      exact ⟨x, hx, keeps_child h ha⟩
    · rw [Function.update_of_ne hd] at hz
      exact ⟨z, hz, z.keeps_refl⟩

end ViewObjects

namespace Portal

/-! ## Numbers -/

/-- A conversion of a `double` to an `int` drops the fraction. What it gives for a value that does
not fit is not defined. -/
def Truncates (toInt : Double → Int) : Prop :=
  ∀ q : ℚ, -2 ^ 31 - 1 < q → q < 2 ^ 31 → toInt (.fin q) = q.num.tdiv q.den

/-- Arithmetic on rationals, with a conversion. -/
def arithOf (toInt : Double → Int) : Arith := { exactArith with toInt := toInt }

/-- Ten times the cost fits into an `int`. -/
def Fits (c : ℚ) : Prop := 10 * c + 1 / 2 < 2 ^ 31

/-- A number of three digits is within 0.05 of the cost. -/
def Printable (c : ℚ) : Prop := ∃ v, HasDigits 10 3 v ∧ |v - c| ≤ 1 / 20

section Numbers

variable {toInt : Double → Int} {c c' : ℚ}

/-- The number that is stored. -/
def numberOf (toInt : Double → Int) (c : ℚ) : ℚ := toInt (.fin (10 * c + 1 / 2)) / 10

theorem served_fin (toInt : Double → Int) (c : ℚ) :
    (arithOf toInt).served (.fin c) = roundTo 10 3 (numberOf toInt c) := by
  show roundTo 10 3 (toInt (.fin (c * ((10 : Nat) : ℚ) + 1 / 2)) / 10) = _
  have harg : c * ((10 : Nat) : ℚ) + 1 / 2 = 10 * c + 1 / 2 := by
    push_cast
    ring
  rw [numberOf, harg]

theorem numberOf_eq (ht : Truncates toInt) (h0 : 0 ≤ c) (hc : Fits c) :
    numberOf toInt c = (⌊10 * c + 1 / 2⌋ : ℚ) / 10 := by
  have hpos : (0 : ℚ) ≤ 10 * c + 1 / 2 := by linarith
  rw [numberOf, ht _ (by linarith) hc, Int.tdiv_eq_ediv_of_nonneg (Rat.num_nonneg.2 hpos),
    Rat.floor_def']

theorem numberOf_mono (ht : Truncates toInt) (h0 : 0 ≤ c) (hc' : Fits c') (h : c < c') :
    numberOf toInt c ≤ numberOf toInt c' := by
  have hc : Fits c := lt_of_le_of_lt (by linarith) hc'
  rw [numberOf_eq ht h0 hc, numberOf_eq ht (h0.trans h.le) hc']
  have hfloor : ⌊10 * c + 1 / 2⌋ ≤ ⌊10 * c' + 1 / 2⌋ := Int.floor_le_floor (by linarith)
  have hcast : ((⌊10 * c + 1 / 2⌋ : ℤ) : ℚ) ≤ ⌊10 * c' + 1 / 2⌋ := by exact_mod_cast hfloor
  linarith

/-- Numbers of three digits are integers, or at most 99.9. -/
theorem digits_cases {v : ℚ} (h : HasDigits 10 3 v) : (∃ n : ℤ, v = n) ∨ v ≤ 999 / 10 := by
  obtain ⟨m, k, hm, rfl⟩ := h
  have hm : |(m : ℚ)| ≤ 999 := by
    have hle : |m| ≤ 999 := by
      norm_num at hm
      omega
    exact_mod_cast hle
  rcases lt_or_ge k 0 with hk | hk
  · refine .inr ?_
    have hpow : (10 : ℚ) ^ k ≤ (10 : ℚ) ^ (-1 : ℤ) :=
      zpow_le_zpow_right₀ (by norm_num) (by omega)
    push_cast
    calc (m : ℚ) * (10 : ℚ) ^ k ≤ 999 * (10 : ℚ) ^ k :=
          mul_le_mul_of_nonneg_right ((le_abs_self _).trans hm) (by positivity)
      _ ≤ 999 * (10 : ℚ) ^ (-1 : ℤ) := mul_le_mul_of_nonneg_left hpow (by norm_num)
      _ = 999 / 10 := by norm_num
  · obtain ⟨n, rfl⟩ := Int.eq_ofNat_of_zero_le hk
    refine .inl ⟨m * 10 ^ n, ?_⟩
    push_cast
    rw [zpow_natCast]

/-- Tenths up to 100 have three digits and are printed as they are. -/
theorem roundTo_tenths {t : ℤ} (hpos : 0 ≤ t) (ht : t ≤ 1000) :
    roundTo 10 3 ((t : ℚ) / 10) = (t : ℚ) / 10 := by
  refine roundTo_of_hasDigits (by norm_num) ?_
  rcases ht.eq_or_lt with rfl | ht
  · exact ⟨1, 2, by norm_num, by norm_num⟩
  · refine ⟨t, -1, ?_, ?_⟩
    · rw [abs_of_nonneg hpos]
      norm_num
      exact ht
    · push_cast
      rw [zpow_neg_one]
      ring

/-- From 100 on, integers are printed. -/
theorem roundTo_tenths_int {t : ℤ} (ht : 1000 < t) :
    ∃ r : ℤ, roundTo 10 3 ((t : ℚ) / 10) = r := by
  have hlarge : (1000 : ℚ) < t := by exact_mod_cast ht
  have hplace : 0 ≤ lastPlace 10 3 ((t : ℚ) / 10) := by
    have hlog : 2 ≤ Int.log 10 |(t : ℚ) / 10| := by
      rw [abs_of_pos (by linarith)]
      refine (Int.zpow_le_iff_le_log (by norm_num) (by linarith)).1 ?_
      norm_num
      linarith
    rw [lastPlace]
    omega
  obtain ⟨r, hr⟩ := exists_multiple (by norm_num : 1 < 10) hplace
    (nearestEven ((t : ℚ) / 10 / ((10 : ℕ) : ℚ) ^ lastPlace 10 3 ((t : ℚ) / 10)))
  exact ⟨r, by rw [roundTo, hr, zpow_zero, mul_one]⟩

/-- What is printed of a cost is within 0.05 of it, if a number of three digits is. -/
theorem abs_served (ht : Truncates toInt) (h0 : 0 ≤ c) (hc : Fits c) (hp : Printable c) :
    |roundTo 10 3 (numberOf toInt c) - c| ≤ 1 / 20 := by
  have hle := Int.floor_le (10 * c + 1 / 2)
  have hlt := Int.lt_floor_add_one (10 * c + 1 / 2)
  rw [numberOf_eq ht h0 hc]
  obtain ⟨v, hv, hclose⟩ := hp
  obtain ⟨hlow, hhigh⟩ := abs_le.1 hclose
  have hpos : 0 ≤ ⌊10 * c + 1 / 2⌋ := Int.floor_nonneg.2 (by linarith)
  generalize ⌊10 * c + 1 / 2⌋ = t at hle hlt hpos ⊢
  have hpos' : (0 : ℚ) ≤ t := by exact_mod_cast hpos
  have hsmall : t ≤ 1000 → |roundTo 10 3 ((t : ℚ) / 10) - c| ≤ 1 / 20 := by
    intro ht
    rw [roundTo_tenths hpos ht, abs_le]
    constructor <;> linarith
  rcases digits_cases hv with ⟨n, rfl⟩ | hv
  · by_cases ht : t ≤ 1000
    · exact hsmall ht
    -- the integer that is printed is less than 1 from the one that is near to the cost
    obtain ⟨r, hr⟩ := roundTo_tenths_int (not_le.1 ht)
    have hstep : (10 * n : ℤ) ≤ t := by
      have hlt' : ((10 * n : ℤ) : ℚ) < t + 1 := by
        push_cast
        linarith
      have hlt'' : 10 * n < t + 1 := by exact_mod_cast hlt'
      omega
    have hstep' : (10 : ℚ) * n ≤ t := by exact_mod_cast hstep
    have hnear := roundTo_nearest (show 1 < 10 by norm_num) (show 1 ≤ 3 by norm_num)
      (show (0 : ℚ) ≤ (t : ℚ) / 10 by linarith) hv
    have hgap : |(n : ℚ) - (t : ℚ) / 10| ≤ 1 / 10 := by
      rw [abs_le]
      constructor <;> linarith
    rw [hr] at hnear ⊢
    have hsame : |(r : ℚ) - n| < 1 := by
      have htriangle := abs_sub_le (r : ℚ) ((t : ℚ) / 10) n
      rw [abs_sub_comm ((t : ℚ) / 10) n] at htriangle
      linarith
    rw [int_eq_of_abs_lt hsame]
    exact hclose
  · refine hsmall ?_
    have hle' : (t : ℚ) ≤ 1000 := by linarith
    exact_mod_cast hle'

theorem numberOf_nonneg (ht : Truncates toInt) (h0 : 0 ≤ c) (hc : Fits c) :
    0 ≤ numberOf toInt c := by
  have hpos : 0 ≤ ⌊10 * c + 1 / 2⌋ := Int.floor_nonneg.2 (by linarith)
  rw [numberOf_eq ht h0 hc]
  have hcast : (0 : ℚ) ≤ ⌊10 * c + 1 / 2⌋ := by exact_mod_cast hpos
  linarith

/-- A number that near has three digits. -/
theorem printable_of_served (ht : Truncates toInt) (h0 : 0 ≤ c) (hc : Fits c)
    (h : |roundTo 10 3 (numberOf toInt c) - c| ≤ 1 / 20) : Printable c :=
  ⟨_, hasDigits_roundTo (by norm_num) (by norm_num) (numberOf_nonneg ht h0 hc), h⟩

theorem served_mono (ht : Truncates toInt) (h0 : 0 ≤ c) (hc' : Fits c') (h : c < c') :
    roundTo 10 3 (numberOf toInt c) ≤ roundTo 10 3 (numberOf toInt c') :=
  roundTo_mono (by norm_num) (by norm_num)
    (numberOf_nonneg ht h0 (lt_of_le_of_lt (by linarith) hc')) (numberOf_mono ht h0 hc' h)

/-- A conversion that gives the least `int` for a value that does not fit. -/
def wrapInt : Double → Int
  | .fin q => if -2 ^ 31 - 1 < q ∧ q < 2 ^ 31 then q.num.tdiv q.den else -2 ^ 31
  | _ => -2 ^ 31

theorem truncates_wrapInt : Truncates wrapInt := fun _ hl hu => if_pos ⟨hl, hu⟩

/-- A cost that does not fit gets a number far from it. -/
theorem served_wrapInt (hc : ¬ Fits c) : ¬ |roundTo 10 3 (numberOf wrapInt c) - c| ≤ 1 / 20 := by
  have hbig : (2 : ℚ) ^ 31 ≤ 10 * c + 1 / 2 := not_lt.1 hc
  have hn : numberOf wrapInt c = ((-2 ^ 31 : ℤ) : ℚ) / 10 := by
    rw [numberOf, wrapInt, if_neg fun h => hc h.2]
  have hneg : roundTo 10 3 (numberOf wrapInt c) ≤ 0 := by
    refine roundTo_nonpos (by norm_num) ?_
    rw [hn]
    norm_num
  rw [abs_le]
  rintro ⟨h, -⟩
  linarith

end Numbers

/-! ## Cost maps -/

namespace ViewState

variable {view : ViewState} {costMode : String} {src dst src' dst' : PID}

/-- The pDistance between two PIDs of the prefix map is defined and not negative. -/
structure HasCost (view : ViewState) (src dst : PID) : Prop where
  src_mem : src ∈ view.prefixes.enumerateValues
  dst_mem : dst ∈ view.prefixes.enumerateValues
  defined : view.linkPDistances.getByPid src dst .nan ≠ .nan
  nonneg : (view.linkPDistances.getByPid src dst .nan).isNeg = false

/-- The cost that the mode selects. -/
def selected (view : ViewState) (costMode : String) (src dst : PID) : Double :=
  if costMode = "numerical" then view.intradomainRouting.getWeight src dst
  else view.linkPDistances.getByPid src dst .nan

/-- The PIDs of the link matrix are in the aggregation, and all costs are numbers. -/
structure Costed (view : ViewState) : Prop where
  linked : view.Linked
  link : view.linkPDistances.Entries Double.IsCost
  routing : view.intradomainRouting.Weighted

/-- A lookup with another default. -/
theorem getByPid_default (m : PIDMatrix) (v : Double) : m.getByPid src dst v =
    if m.getByPid src dst .nan = .nan then v else m.getByPid src dst .nan := by
  rw [PIDMatrix.getByPid_eq_filter, PIDMatrix.getByPid_eq_filter]
  cases hf : (m.entry src dst).filter (· ≠ .nan) with
  | none => rfl
  | some x =>
    have hx : x ≠ .nan := by simpa using (Option.filter_eq_some_iff.1 hf).2
    rw [Option.getD_some, Option.getD_some, if_neg hx]

theorem cost_eq_some {x : Double} : view.cost costMode src dst = some x ↔
    (view.linkPDistances.getByPid src dst .nan ≠ .nan ∧
      (view.linkPDistances.getByPid src dst .nan).isNeg = false) ∧
      view.selected costMode src dst = x := by
  have hskip : (Double.fin (-1)).isNeg = true := by decide
  unfold ViewState.cost selected
  rw [getByPid_default]
  generalize view.linkPDistances.getByPid src dst .nan = cost
  by_cases hnan : cost = .nan
  · simp [hnan, hskip]
  · rw [if_neg hnan]
    by_cases hneg : cost.isNeg = true
    · simp [hneg]
    · by_cases hmode : costMode = "numerical" <;> simp [hneg, hnan, hmode]

/-- A selected cost is a number. -/
theorem Costed.selected (hv : view.Costed) (h : view.HasCost src dst) (costMode : String) :
    (view.selected costMode src dst).IsCost := by
  unfold ViewState.selected
  split
  · exact hv.routing.getWeight
  · have hcost : view.linkPDistances.getByPid src dst .nan = .nan ∨
        (view.linkPDistances.getByPid src dst .nan).IsCost :=
      PIDMatrix.Entries.getByPid (P := fun x => x = .nan ∨ x.IsCost)
        (fun ij x hx => .inr (hv.link ij x hx)) (.inl rfl)
    exact hcost.resolve_left h.defined

end ViewState

/-- What a cost map is for: a client reads these entries in its text. -/
structure FaithfulCostMap (costMode : String) (view : ViewState) (text : List Char) :
    Prop where
  entries : ∀ s d, (servedCost text s d).isSome = true ↔
    ∃ src dst, view.HasCost src dst ∧ view.pidName src = s ∧ view.pidName dst = d
  named : ∀ src dst, view.HasCost src dst →
    view.aggregation.has src = true ∧ view.aggregation.has dst = true
  number : ∀ src dst, view.HasCost src dst → ∃ c n, view.selected costMode src dst = .fin c ∧
    servedCost text (view.pidName src) (view.pidName dst) = some (.fin n) ∧ |n - c| ≤ 1 / 20
  monotone : ∀ src dst src' dst' c c' n n', view.HasCost src dst → view.HasCost src' dst' →
    view.selected costMode src dst = .fin c → view.selected costMode src' dst' = .fin c' →
    servedCost text (view.pidName src) (view.pidName dst) = some (.fin n) →
    servedCost text (view.pidName src') (view.pidName dst') = some (.fin n') → c < c' → n ≤ n'
  distinct : ∀ src dst src' dst', view.HasCost src dst → view.HasCost src' dst' →
    view.pidName src = view.pidName src' → view.pidName dst = view.pidName dst' →
    src = src' ∧ dst = dst'

/-- The map is made, and is faithful however values that do not fit are converted. -/
def FaithfulCosts (vtag costMode costType : String) (view : ViewState) : Prop :=
  ∀ toInt, Truncates toInt → ∃ text,
    getCostMapFinish (arithOf toInt) vtag costMode costType (some view) = .ok text ∧
      FaithfulCostMap costMode view text

section FullMap

variable {view : ViewState} {vtag costMode costType : String} {toInt : Double → Int}
  {text : List Char} {src dst src' dst' : PID}

/-- The entry of a pair. -/
theorem get_of_hasCost (hv : view.Costed)
    (htext : getCostMapFinish (arithOf toInt) vtag costMode costType (some view) = .ok text)
    (h : view.HasCost src dst) {c : ℚ} (hc : view.selected costMode src dst = .fin c) :
    servedCost text (view.pidName src) (view.pidName dst) =
      some (.fin (roundTo 10 3 (numberOf toInt c))) :=
  (get_costMap hv.linked htext).2 ⟨src, dst, .fin c, mem_allPids.1 (mem_pidSetOf.2 h.src_mem),
    mem_allPids.1 (mem_pidSetOf.2 h.dst_mem), rfl, rfl,
    ViewState.cost_eq_some.2 ⟨⟨h.defined, h.nonneg⟩, hc⟩, by rw [served_fin]⟩

theorem faithfulCosts_iff (hv : view.Costed) (hmode : costMode ∈ costModeSet)
    (htype : costType ∈ costTypeSet) : FaithfulCosts vtag costMode costType view ↔
      ∀ src dst c, view.HasCost src dst → view.selected costMode src dst = .fin c →
        Fits c ∧ Printable c := by
  constructor
  · intro h src dst c hpair hc
    obtain ⟨text, htext, hf⟩ := h wrapInt truncates_wrapInt
    obtain ⟨c', n, hc', hn, hclose⟩ := hf.number src dst hpair
    rw [hc] at hc'
    cases hc'
    rw [get_of_hasCost hv htext hpair hc] at hn
    cases hn
    obtain ⟨c₀, h0, hc₀⟩ := hv.selected hpair costMode
    rw [hc] at hc₀
    cases hc₀
    have hfits : Fits c := by
      by_contra hno
      exact served_wrapInt hno hclose
    exact ⟨hfits, printable_of_served truncates_wrapInt h0 hfits hclose⟩
  · intro hfits toInt ht
    obtain ⟨text, htext⟩ : ∃ text,
        getCostMapFinish (arithOf toInt) vtag costMode costType (some view) = .ok text := by
      simp [getCostMapFinish, hmode, htype]
    have hcost : ∀ {src dst : PID}, view.HasCost src dst → ∃ x,
        view.cost costMode src dst = some x := fun h =>
      ⟨_, ViewState.cost_eq_some.2 ⟨⟨h.defined, h.nonneg⟩, rfl⟩⟩
    refine ⟨text, htext, ?_, ?_, ?_, ?_, ?_⟩
    · intro s d
      rw [Option.isSome_iff_exists]
      constructor
      · rintro ⟨n, hn⟩
        obtain ⟨p, q, c, hp, hq, hs, hd, hc, -⟩ := (get_costMap hv.linked htext).1 hn
        obtain ⟨⟨hdef, hneg⟩, -⟩ := ViewState.cost_eq_some.1 hc
        exact ⟨p, q, ⟨mem_pidSetOf.1 (mem_allPids.2 hp), mem_pidSetOf.1 (mem_allPids.2 hq), hdef,
          hneg⟩, hs, hd⟩
      · rintro ⟨p, q, hpq, rfl, rfl⟩
        obtain ⟨c, -, hc⟩ := hv.selected hpq costMode
        exact ⟨_, get_of_hasCost hv htext hpq hc⟩
    · intro src dst h
      obtain ⟨x, hx⟩ := hcost h
      exact ⟨hv.linked src (ViewState.find_of_cost hx).1, hv.linked dst (ViewState.find_of_cost hx).2⟩
    · intro src dst h
      obtain ⟨c, h0, hc⟩ := hv.selected h costMode
      obtain ⟨hfit, hprint⟩ := hfits src dst c h hc
      exact ⟨c, _, hc, get_of_hasCost hv htext h hc, abs_served ht h0 hfit hprint⟩
    · intro src dst src' dst' c c' n n' h h' hc hc' hn hn' hlt
      rw [get_of_hasCost hv htext h hc] at hn
      rw [get_of_hasCost hv htext h' hc'] at hn'
      cases hn
      cases hn'
      obtain ⟨c₀, h0, hc₀⟩ := hv.selected h costMode
      rw [hc] at hc₀
      cases hc₀
      exact served_mono ht h0 (hfits src' dst' c' h' hc').1 hlt
    · intro src dst src' dst' h h' hs hd
      obtain ⟨x, hx⟩ := hcost h
      obtain ⟨x', hx'⟩ := hcost h'
      obtain ⟨heq, heq', -⟩ := hv.linked.inj hx hx' hs hd
      exact ⟨heq, heq'⟩

end FullMap

end Portal

namespace Server

variable {env : Env} {s₀ s : Server}

/-- The objects of the view in a slot. -/
structure ViewAt (s : Server) (i : Nat) (view : Portal.ViewState) : Prop where
  prefixes : s.tree.objects i .prefixes = some (.pidMap view.prefixes)
  aggregation : s.tree.objects i .aggregation = some (.aggregation view.aggregation)
  link : s.tree.objects i .linkPDistances = some (.matrix view.linkPDistances)
  routing : s.tree.objects i .intraRouting = some (.routing view.intradomainRouting)

theorem ViewAt.costed {i : Nat} {view : Portal.ViewState} (h : s.ViewAt i view)
    (hs : (s.tree.objects i).Costed) : view.Costed :=
  ⟨fun pid hpid => hs.linked _ _ h.aggregation h.link pid hpid, hs.link _ h.link,
    hs.routing _ h.routing⟩

/-- The cost maps of a view that administrators have reached are faithful exactly if ten times every
selected cost fits into an `int`, and a number of three digits is within 0.05 of it. -/
theorem cost_maps_faithful_iff (env : Env) (clock : Nat → Nat) (hinit : init env clock = some s₀)
    (events : List Event)
    (hr : Lib.Run (react env) (fun _ e => ∀ a ∈ e.actions, a.Costed) s₀ events s) (i : Nat)
    (view : Portal.ViewState) (hview : s.ViewAt i view) (vtag costMode costType : String)
    (hmode : costMode ∈ Portal.costModeSet) (htype : costType ∈ Portal.costTypeSet) :
    Portal.FaithfulCosts vtag costMode costType view ↔
      ∀ src dst c, view.HasCost src dst → view.selected costMode src dst = .fin c →
        Portal.Fits c ∧ Portal.Printable c := by
  have hviews := (views_of_run (Q := ViewObjects.Costed) (fun v w h hv => hv.step h)
    ViewObjects.costed_none hinit hr).2
  exact Portal.faithfulCosts_iff (hview.costed (hviews i)) hmode htype

/-! ## A view with one link -/

/-- The PID `1.i.isp` has the prefix `10.0.0.0/8` and a link to itself with this cost. -/
def linkedView (cost : Double) : Portal.ViewState where
  prefixes := (PatriciaTrie.empty.add (fun _ _ => false) PatriciaTrie.ten8 Portal.onePid).2
  aggregation :=
    ((PIDAggregation.empty.add "a" Portal.onePid ∅).2.defineLink "l" Portal.onePid Portal.onePid).2
  linkPDistances := ((PIDMatrix.empty.addPid Portal.onePid).2.setByPid Portal.onePid
    Portal.onePid cost).2
  intradomainRouting := (PIDRouting.new defaultWeight).addPid Portal.onePid

deriving instance DecidableEq for Radix, PatriciaTrie, Payload

/-- The transaction that makes it. -/
def linkEvent (cost : Double) : Event :=
  .transact (fun _ => 0) .directWrite [1] [.viewAdd "isp", .viewAddPID "isp" "a" Portal.onePid,
    .viewAddPIDPrefixes "isp" "a" [PatriciaTrie.ten8], .viewAddPIDLink "isp" "l" "a" "a",
    .viewSetLinkCost "isp" "l" cost]

/-- The server after the transaction. -/
def linkedServer (cost : Double) : Option Server :=
  (init sampleEnv fun _ => 0).bind fun s => react sampleEnv s (linkEvent cost)

/-- The objects of the view, as the server has them. -/
def LinkedServer (cost : Double) : Prop :=
  (linkedServer cost).map (fun s => [s.tree.objects 1 .prefixes, s.tree.objects 1 .aggregation,
    s.tree.objects 1 .linkPDistances, s.tree.objects 1 .intraRouting]) =
    some [some (.pidMap (linkedView cost).prefixes),
      some (.aggregation (linkedView cost).aggregation),
      some (.matrix (linkedView cost).linkPDistances),
      some (.routing (linkedView cost).intradomainRouting)]

instance (cost : Double) : Decidable (LinkedServer cost) :=
  inferInstanceAs (Decidable (_ = _))

theorem linkedView_reached (cost : Double) (hcost : cost.IsCost) (h : LinkedServer cost) :
    ∃ s₀ s, init sampleEnv (fun _ => 0) = some s₀ ∧
      Lib.Run (react sampleEnv) (fun _ e => ∀ a ∈ e.actions, a.Costed) s₀ [linkEvent cost] s ∧
      s.ViewAt 1 (linkedView cost) := by
  obtain ⟨s, hs, hobjects⟩ := Option.map_eq_some_iff.1 h
  obtain ⟨s₀, hinit, hreact⟩ := Option.bind_eq_some_iff.1 hs
  simp only [List.cons.injEq, and_true] at hobjects
  obtain ⟨hprefixes, hagg, hlink, hrouting⟩ := hobjects
  refine ⟨s₀, s, hinit, .cons ?_ hreact (.nil _), ⟨hprefixes, hagg, hlink, hrouting⟩⟩
  intro a ha
  simp only [Event.actions, linkEvent, List.mem_cons, List.not_mem_nil, or_false] at ha
  rcases ha with rfl | rfl | rfl | rfl | rfl
  case inr.inr.inr.inr => exact hcost
  all_goals trivial

/-- The link has this cost. -/
theorem linkedView_entries (cost : Double) :
    (linkedView cost).linkPDistances.Entries (· = cost) :=
  PIDMatrix.entries_empty.addPid.setByPid rfl

/-- A cost of 12.34 is served as 12.3. -/
theorem cost_maps_faithful_iff_hundredths :
    ∃ s : Server, s.ViewAt 1 (linkedView (.fin (1234 / 100))) ∧
      Portal.FaithfulCosts "1" "ordinal" "routingcost" (linkedView (.fin (1234 / 100))) := by
  obtain ⟨s₀, s, hinit, hr, hview⟩ :=
    linkedView_reached (.fin (1234 / 100)) ⟨1234 / 100, by norm_num, rfl⟩ (by decide +kernel)
  refine ⟨s, hview, (cost_maps_faithful_iff sampleEnv _ hinit _ hr 1 _ hview "1" "ordinal"
    "routingcost" (by decide) (by decide)).2 fun src dst c h hc => ?_⟩
  have hcost : (linkedView (.fin (1234 / 100))).linkPDistances.getByPid src dst .nan =
      .fin (1234 / 100) :=
    (PIDMatrix.Entries.getByPid (P := fun x => x = .nan ∨ x = .fin (1234 / 100))
      (fun ij x hx => .inr (linkedView_entries _ ij x hx)) (.inl rfl)).resolve_left h.defined
  have hc' : Double.fin (1234 / 100) = .fin c := by rw [← hcost]; exact hc
  cases hc'
  refine ⟨?_, 123 / 10, ⟨123, -1, by norm_num, by norm_num⟩, ?_⟩
  · unfold Portal.Fits
    norm_num
  · rw [abs_le]
    constructor <;> norm_num

/-- A cost of 1234 is served as 1230. -/
theorem cost_map_not_faithful :
    ¬ ∀ (env : Env) (clock : Nat → Nat) (s₀ s : Server) (events : List Event) (i : Nat)
      (view : Portal.ViewState) (vtag costMode costType : String), init env clock = some s₀ →
      Lib.Run (react env) (fun _ e => ∀ a ∈ e.actions, a.Costed) s₀ events s →
      s.ViewAt i view → costMode ∈ Portal.costModeSet → costType ∈ Portal.costTypeSet →
      Portal.FaithfulCosts vtag costMode costType view := by
  intro hall
  obtain ⟨s₀, s, hinit, hr, hview⟩ :=
    linkedView_reached 1234 ⟨1234, by decide, rfl⟩ (by decide +kernel)
  have hviews := (views_of_run (Q := ViewObjects.Costed) (fun v w h hv => hv.step h)
    ViewObjects.costed_none hinit hr).2
  have hfaithful := hall sampleEnv _ s₀ s _ 1 _ "1" "ordinal" "routingcost" hinit hr hview
    (by decide) (by decide)
  have hcost : (linkedView 1234).linkPDistances.getByPid Portal.onePid Portal.onePid .nan = 1234 := by
    decide +kernel
  have hmem : Portal.onePid ∈ (linkedView 1234).prefixes.enumerateValues := by decide +kernel
  obtain ⟨text, htext, hf⟩ := hfaithful Portal.wrapInt Portal.truncates_wrapInt
  have hpair : (linkedView 1234).HasCost Portal.onePid Portal.onePid :=
    ⟨hmem, hmem, by rw [hcost]; decide, by rw [hcost]; decide⟩
  have hread := Portal.get_of_hasCost (hview.costed (hviews 1)) htext hpair (c := 1234) hcost
  have hnumber : roundTo 10 3 (Portal.numberOf Portal.wrapInt 1234) = 1230 := by decide +kernel
  obtain ⟨c, n, hc, hn, hclose⟩ := hf.number _ _ hpair
  cases (hcost.symm.trans hc : (1234 : Double) = .fin c)
  cases (hread.symm.trans hn)
  rw [hnumber, abs_le] at hclose
  norm_num at hclose

end Server

end Alto
