import Alto.Verify.AdminEffect
import Alto.Verify.OpenTxn
import Alto.Verify.PrefixMap

/-!
# The prefix actions

`AdminViewAddPIDPrefixes` and `AdminViewDeletePIDPrefixes` report success whatever `PIDMap::add` and
`PIDMap::remove` return.
-/

namespace Alto

open Lib Prog PatriciaTrie Alto.Action

/-! ## Lists of prefixes -/

/-- One round of the loop. -/
def changePrefix (f : PIDMap → IPPrefix → Bool × PIDMap) (r : Bool × PIDMap) (pfx : IPPrefix) :
    Bool × PIDMap :=
  ((f r.2 pfx).1 || r.1, (f r.2 pfx).2)

theorem changePrefixes_snd (f : PIDMap → IPPrefix → Bool × PIDMap) (m : PIDMap)
    (l : List IPPrefix) : (changePrefixes f m l).2 = l.foldl (fun m p => (f m p).2) m := by
  have hfold : ∀ (l : List IPPrefix) (r : Bool × PIDMap),
      (l.foldl (changePrefix f) r).2 = l.foldl (fun m p => (f m p).2) r.2 := by
    intro l
    induction l with
    | nil => exact fun _ => rfl
    | cons x l ih => exact fun r => ih _
  exact hfold l (false, m)

theorem changed_mono {f : PIDMap → IPPrefix → Bool × PIDMap} (l : List IPPrefix) (r : Bool × PIDMap)
    (hr : r.1 = true) : (l.foldl (changePrefix f) r).1 = true := by
  induction l generalizing r with
  | nil => exact hr
  | cons x l ih => exact ih _ (by simp [changePrefix, hr])

/-- If no call reports a change, the map is what it was. -/
theorem changePrefixes_unchanged {f : PIDMap → IPPrefix → Bool × PIDMap} {m : PIDMap}
    (hf : ∀ p, (f m p).1 = false → (f m p).2 = m) {l : List IPPrefix}
    (h : (changePrefixes f m l).1 = false) : (changePrefixes f m l).2 = m := by
  change (l.foldl (changePrefix f) (false, m)).1 = false at h
  change (l.foldl (changePrefix f) (false, m)).2 = m
  induction l with
  | nil => rfl
  | cons x l ih =>
    rw [List.foldl_cons] at h ⊢
    cases hx : (f m x).1 with
    | true =>
      rw [changed_mono l _ (by simp [changePrefix, hx])] at h
      cases h
    | false =>
      have hround : changePrefix f (false, m) x = (false, m) := by
        rw [changePrefix, hx, hf x hx]
        rfl
      rw [hround] at h ⊢
      exact ih h

/-! ## What the actions report -/

/-- Every prefix of the list belongs to the PID, and no other prefix has changed. -/
def AddedExactly (M M' : PrefixMap PID) (pid : PID) (prefixes : List IPPrefix) : Prop :=
  (∀ p ∈ prefixes, M' p = some pid) ∧ ∀ p, p ∉ prefixes → M' p = M p

/-- No prefix of the list belongs to the PID, and no prefix of another PID has changed. -/
def DeletedExactly (M M' : PrefixMap PID) (pid : PID) (prefixes : List IPPrefix) : Prop :=
  (∀ p ∈ prefixes, M' p ≠ some pid) ∧ ∀ p, M p ≠ some pid → M' p = M p

/-- Every prefix of the list belongs to the PID already, or its bits are not in the map; and no two
of them have the same bits. -/
structure Addable (M : PrefixMap PID) (pid : PID) (prefixes : List IPPrefix) : Prop where
  free : ∀ p ∈ prefixes, M p = some pid ∨ ¬ Taken M p
  distinct : ∀ p ∈ prefixes, ∀ q ∈ prefixes, p.bits = q.bits → p = q

variable {M M' : PrefixMap PID} {m : PIDMap} {pid : PID} {prefixes : List IPPrefix}

theorem addedExactly_iff (hrep : Represents m M') (h : AfterAdds M M' pid prefixes) :
    AddedExactly M M' pid prefixes ↔ Addable M pid prefixes := by
  constructor
  · rintro ⟨hadded, -⟩
    refine ⟨fun p hp => ?_, fun p hp q hq => hrep.bits_inj (hadded p hp) (hadded q hq)⟩
    by_cases hM : M p = none
    · refine .inr ?_
      rintro ⟨q, hb, hq⟩
      obtain ⟨w, hw⟩ := Option.ne_none_iff_exists'.1 hq
      have hw' : M' q = some w := (h.kept q hq).trans hw
      rw [hrep.bits_inj hw' (hadded p hp) hb] at hq
      exact hq hM
    · exact .inl ((h.kept p hM).symm.trans (hadded p hp))
  · intro hadd
    refine ⟨fun p hp => ?_, h.other⟩
    rcases hadd.free p hp with hM | hfree
    · rw [h.kept p (by simp [hM]), hM]
    · obtain ⟨q, hb, hq⟩ := h.taken p hp
      have hnone : ∀ r, r.bits = p.bits → M r = none := fun r hr =>
        not_not.1 fun hne => hfree ⟨r, hr, hne⟩
      have hqmem : q ∈ prefixes := by
        by_contra hno
        exact hq ((h.other q hno).trans (hnone q hb))
      obtain rfl := hadd.distinct q hqmem p hp hb
      exact (h.new q (hnone q rfl)).resolve_left hq

variable {env : Env} {type : TxnType} {T : ObjTree Payload} {w w' : Work Payload}
  {view name : String} {i : Nat}

/-- The copy of a prefix map has the same prefixes. -/
theorem refs_prefixes {T₁ : ObjTree Payload} (h : Refs env.copying type T T₁)
    (hm : T.payload (childPath i .prefixes) = some (.pidMap m)) (hrep : Represents m M) :
    ∃ m₁, T₁.payload (childPath i .prefixes) = some (.pidMap m₁) ∧ Represents m₁ M := by
  obtain ⟨-, hy, m₁, rfl, hrep₁⟩ := h.payload_of
    (Q := fun y => ∃ m₁, y = .pidMap m₁ ∧ Represents m₁ M) hm ⟨m, rfl, hrep⟩
    ⟨m.copyFrom env.behind, rfl, (correct_copy hrep env.behind).represents⟩
  exact ⟨m₁, hy, hrep₁⟩

/-- The end of both actions: the list is worked off, and the action reports success. -/
theorem post_changePrefixes (env : Env) (type : TxnType) (prefixes : List IPPrefix)
    {f : PIDMap → IPPrefix → Bool × PIDMap}
    (hf : ∀ m p, Represents m M → (f m p).1 = false → (f m p).2 = m)
    (hslot : Slot T view i) (hpid : Named T i name pid)
    (hm : T.payload (childPath i .prefixes) = some (.pidMap m)) (hrep : Represents m M)
    (g : PID → PIDMap → IPPrefix → Bool × PIDMap) (hg : g pid = f) :
    Prog.Post env.copying type (do
        let i ← getChildWrite .prefixes view
        let pidObj ← lookupPid view name
        let m ← loadPIDMap (childPath i .prefixes)
        let _ ← putChild i .prefixes ((changePrefixes (g pidObj) m prefixes).map id .pidMap)
        return true) T
      (fun r T' => r = true ∧ ∃ m₁, Represents m₁ M ∧
        T'.payload (childPath i .prefixes) =
          some (.pidMap (prefixes.foldl (fun m p => (f m p).2) m₁)))
      fun _ => True := by
  refine Post.bind (post_getChildWrite (fun j T₁ h₁ => ?_) fun _ _ _ => trivial)
  obtain rfl : i = j := (h₁.1.slot hslot).eq h₁.2
  refine Post.bind (post_lookupPid (fun p j T₂ h₂ hn => ?_) fun _ _ => trivial)
  have hrefs := h₁.1.trans h₂.1
  obtain rfl : i = j := (h₂.1.slot h₁.2).eq h₂.2
  obtain rfl : pid = p := (hrefs.named hpid).eq hn
  obtain ⟨m₁, hm₁, hrep₁⟩ := refs_prefixes hrefs hm hrep
  refine Post.bind (post_loadPIDMap fun m₂ hm₂ => Post.bind (post_putChild (Post.pure ?_)))
  obtain rfl : m₁ = m₂ := by simpa using hm₁.symm.trans hm₂
  refine ⟨rfl, m₁, hrep₁, ?_⟩
  rw [hg, ← changePrefixes_snd]
  simp only [Prod.map_fst, Prod.map_snd, id_eq]
  split
  · exact ObjTree.payload_store T₂ true hm₁
  · next hno =>
    rw [changePrefixes_unchanged (fun p => hf m₁ p hrep₁) (by simpa using hno)]
    exact hm₁

/-! ## The prefixes after an action -/

section

variable (hw : OpenTxn w) (hslot : Slot w.tree view i) (hpid : Named w.tree i name pid)
  (hm : w.tree.payload (childPath i .prefixes) = some (.pidMap m)) (hrep : Represents m M)
include hw hslot hpid hm hrep

theorem addPrefixes_report {r : Bool}
    (hexec : (viewAddPIDPrefixesCommit env view name prefixes).exec env.copying w = (.ok r, w')) :
    r = true ∧ ∃ m' M', w'.tree.payload (childPath i .prefixes) = some (.pidMap m') ∧
      Represents m' M' ∧ AfterAdds M M' pid prefixes := by
  have hpost := post_changePrefixes env w.txn.type prefixes
    (fun m p hrep hno => ?_) hslot hpid hm hrep (fun pid m p => m.add env.behind p pid) rfl
  · obtain ⟨hr, m₁, hrep₁, hlast⟩ := hpost.of_exec hw hexec
    obtain ⟨M', hrep', hM⟩ := represents_adds hrep₁ env.behind pid prefixes
    exact ⟨hr, _, M', hlast, hrep', hM⟩
  · rcases represents_add hrep env.behind p pid with ⟨-, hsame⟩ | ⟨-, hyes, -⟩
    · exact hsame
    · exact absurd (hyes.symm.trans hno) (by simp)

theorem deletePrefixes_report {r : Bool}
    (hexec : (viewDeletePIDPrefixesCommit env view name prefixes).exec env.copying w =
      (.ok r, w')) :
    r = true ∧ ∃ m' M', w'.tree.payload (childPath i .prefixes) = some (.pidMap m') ∧
      Represents m' M' ∧ DeletedExactly M M' pid prefixes := by
  have hpost := post_changePrefixes env w.txn.type prefixes
    (fun m p hrep hno => (represents_remove hrep env.behind p pid).2 hno) hslot hpid hm hrep
    (fun pid m p => m.remove env.behind p pid) rfl
  obtain ⟨hr, m₁, hrep₁, hlast⟩ := hpost.of_exec hw hexec
  refine ⟨hr, _, _, hlast, represents_removes hrep₁ env.behind pid prefixes, fun p hp => ?_,
    fun p hp => if_neg fun h => hp h.2⟩
  intro hM
  dsimp only at hM
  split at hM
  · cases hM
  · next hno => exact hno ⟨⟨p, hp, rfl⟩, hM⟩

/-- Both actions always report success. Adding does what that says exactly if each prefix of the list
belongs to the PID already or finds its bits free; deleting always does. -/
theorem prefix_actions_report :
    (∀ r w', (viewAddPIDPrefixesCommit env view name prefixes).exec env.copying w = (.ok r, w') →
      r = true ∧ ∃ m' M', w'.tree.payload (childPath i .prefixes) = some (.pidMap m') ∧
        Represents m' M' ∧ (AddedExactly M M' pid prefixes ↔ Addable M pid prefixes)) ∧
    ∀ r w', (viewDeletePIDPrefixesCommit env view name prefixes).exec env.copying w = (.ok r, w') →
      r = true ∧ ∃ m' M', w'.tree.payload (childPath i .prefixes) = some (.pidMap m') ∧
        Represents m' M' ∧ DeletedExactly M M' pid prefixes := by
  refine ⟨fun r w' hexec => ?_, fun r w' hexec =>
    deletePrefixes_report hw hslot hpid hm hrep hexec⟩
  obtain ⟨hr, m', M', hm', hrep', hM⟩ := addPrefixes_report hw hslot hpid hm hrep hexec
  exact ⟨hr, m', M', hm', hrep', addedExactly_iff hrep' hM⟩

end

/-- A view with two PIDs. -/
def twoPids : List Action :=
  [.viewAdd "isp", .viewAddPID "isp" "west" ⟨"isp.example", 1, false⟩,
    .viewAddPID "isp" "east" ⟨"isp.example", 2, false⟩]

/-- A prefix that is added to a PID of a view without prefixes. -/
theorem prefix_actions_report_west :
    ∃ w w', sampleWork twoPids = some w ∧ (viewAddPIDPrefixesCommit Server.sampleEnv "isp" "west"
        [ten8]).exec Server.sampleEnv.copying w = (.ok true, w') ∧
      ∃ m' M', w'.tree.payload (childPath 0 .prefixes) = some (.pidMap m') ∧ Represents m' M' ∧
        AddedExactly (fun _ => none) M' ⟨"isp.example", 1, false⟩ [ten8] := by
  have hstart : ∃ w w', sampleWork twoPids = some w ∧
      Slot w.tree "isp" 0 ∧ Named w.tree 0 "west" ⟨"isp.example", 1, false⟩ ∧
      w.tree.payload (childPath 0 .prefixes) = some (.pidMap .empty) ∧
      (viewAddPIDPrefixesCommit Server.sampleEnv "isp" "west" [ten8]).exec
        Server.sampleEnv.copying w = (.ok true, w') :=
    ⟨_, _, rfl, ⟨_, rfl, rfl, rfl⟩, ⟨_, rfl, rfl, rfl⟩, rfl, rfl⟩
  obtain ⟨w, w', hw, hslot, hpid, hm, hexec⟩ := hstart
  obtain ⟨-, m', M', hm', hrep, hiff⟩ := (prefix_actions_report (openTxn_sampleWork hw) hslot hpid hm
    represents_empty).1 _ _ hexec
  refine ⟨w, w', hw, hexec, m', M', hm', hrep, hiff.2 ⟨fun p _ => .inr ?_, ?_⟩⟩
  · rintro ⟨q, -, hq⟩
    exact hq rfl
  · rintro p hp q hq -
    rw [List.mem_singleton.1 hp, List.mem_singleton.1 hq]

/-- A prefix of one PID is added to another one: the action reports success, and the prefix stays
where it was. -/
theorem add_reports_success_without_adding :
    ¬ ∀ (env : Env) (w w' : Work Payload) (view name : String) (i : Nat) (pid : PID)
      (prefixes : List IPPrefix) (m m' : PIDMap) (M M' : PrefixMap PID), OpenTxn w →
      Slot w.tree view i → Named w.tree i name pid →
      w.tree.payload (childPath i .prefixes) = some (.pidMap m) → Represents m M →
      (viewAddPIDPrefixesCommit env view name prefixes).exec env.copying w = (.ok true, w') →
      w'.tree.payload (childPath i .prefixes) = some (.pidMap m') → Represents m' M' →
      AddedExactly M M' pid prefixes := by
  intro h
  have hstart : ∃ w w' w'', sampleWork twoPids = some w ∧ sampleWork (twoPids ++
        [.viewAddPIDPrefixes "isp" "west" [ten8]]) = some w' ∧
      Slot w.tree "isp" 0 ∧ Named w.tree 0 "west" ⟨"isp.example", 1, false⟩ ∧
      w.tree.payload (childPath 0 .prefixes) = some (.pidMap .empty) ∧
      (viewAddPIDPrefixesCommit Server.sampleEnv "isp" "west" [ten8]).exec
        Server.sampleEnv.copying w = (.ok true, w') ∧
      Slot w'.tree "isp" 0 ∧ Named w'.tree 0 "east" ⟨"isp.example", 2, false⟩ ∧
      (viewAddPIDPrefixesCommit Server.sampleEnv "isp" "east" [ten8]).exec
        Server.sampleEnv.copying w' = (.ok true, w'') :=
    ⟨_, _, _, rfl, rfl, ⟨_, rfl, rfl, rfl⟩, ⟨_, rfl, rfl, rfl⟩, rfl, rfl, ⟨_, rfl, rfl, rfl⟩,
      ⟨_, rfl, rfl, rfl⟩, rfl⟩
  obtain ⟨w, w', w'', hw, hw', hslot, hwest, hm, hexec, hslot', heast, hexec'⟩ := hstart
  obtain ⟨-, m', M', hm', hrep', hM⟩ := addPrefixes_report (openTxn_sampleWork hw) hslot hwest hm
    represents_empty hexec
  obtain ⟨-, m'', M'', hm'', hrep'', hM'⟩ := addPrefixes_report (openTxn_sampleWork hw') hslot' heast
    hm' hrep' hexec'
  have hadd := (addedExactly_iff hrep'' hM').1 (h _ _ _ _ _ _ _ _ _ _ _ _ (openTxn_sampleWork hw')
    hslot' heast hm' hrep' hexec' hm'' hrep'')
  have hten : M' ten8 = some ⟨"isp.example", 1, false⟩ := by
    obtain ⟨q, hb, hq⟩ := hM.taken ten8 List.mem_cons_self
    have hqmem : q ∈ [ten8] := by
      by_contra hno
      exact hq (hM.other q hno)
    obtain rfl := List.mem_singleton.1 hqmem
    exact (hM.new ten8 rfl).resolve_left hq
  rcases hadd.free ten8 List.mem_cons_self with heq | hfree
  · rw [hten] at heq
    exact absurd heq (by decide)
  · exact hfree ⟨ten8, rfl, by simp [hten]⟩

end Alto
