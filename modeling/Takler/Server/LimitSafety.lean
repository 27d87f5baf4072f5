import Takler.Server.LimitAccounting

/-!
# Limit accounting over runs of the server

The deletion of an in-limit changes which in-limit of a limit is the nearest one for the node it
was on and for the nodes below. It is refused while a task below is in flight or holds the limit,
and moves the tokens of the task it was on from the old nearest in-limit to the new one. So it
keeps the ledger, as all other steps do.

## Main results

* `Accounted.deleteInLimit`: the deletion of an in-limit keeps the ledger.
* `accounted_stable`: every command keeps it.
-/

namespace Takler

open Program

/-! ### In-limits after a deletion -/

theorem effectiveTokens_append (l r : List InLimit) (id : LimitId) :
    effectiveTokens (l ++ r) id = (effectiveTokens l id).or (effectiveTokens r id) := by
  simp [effectiveTokens, List.find?_append, Option.map_or]

/-- The removed in-limit matters to its own limit only. -/
theorem effectiveTokens_eraseP {l : List InLimit} {name : String} {target : InLimit}
    {id : LimitId} (hf : l.find? (fun i => i.limitName = name) = some target)
    (hid : target.limit ≠ id) :
    effectiveTokens (l.eraseP fun i => i.limitName = name) id = effectiveTokens l id := by
  induction l with
  | nil => rfl
  | cons i l ih =>
    by_cases hi : i.limitName = name
    · rw [List.find?_cons_of_pos (by simpa using hi), Option.some_inj] at hf
      rw [List.eraseP_cons_of_pos (by simpa using hi), hf, effectiveTokens_cons_of_ne hid]
    · rw [List.find?_cons_of_neg (by simpa using hi)] at hf
      rw [List.eraseP_cons_of_neg (by simpa using hi)]
      by_cases hl : i.limit = id
      · rw [← hl, effectiveTokens_cons_self, effectiveTokens_cons_self]
      · rw [effectiveTokens_cons_of_ne hl, effectiveTokens_cons_of_ne hl, ih hf]

/-- A state with other in-limits on one node. -/
def State.withInLimits (s : State) (p : NodePath) (items : List InLimit) : State :=
  { s with inLimits := Function.update s.inLimits p items }

theorem State.withInLimits_of_not_suffix (s : State) {p : NodePath} (items : List InLimit) :
    ∀ {q : NodePath}, ¬ p <:+ q → (s.withInLimits p items).inLimitsUp q = s.inLimitsUp q
  | [], _ => rfl
  | n :: up, h => by
    have hne : n :: up ≠ p := fun heq => h (heq ▸ List.suffix_rfl)
    have hup : ¬ p <:+ up := fun hs => h (hs.trans (List.suffix_cons n up))
    rw [State.inLimitsUp, State.inLimitsUp, s.withInLimits_of_not_suffix items hup]
    simp [State.withInLimits, Function.update_of_ne hne]

theorem State.mem_inLimitsUp (s : State) {p : NodePath} (hp : p ≠ []) {i : InLimit}
    (hi : i ∈ s.inLimits p) : i ∈ s.inLimitsUp p := by
  obtain ⟨n, up, rfl⟩ := List.exists_cons_of_ne_nil hp
  rw [State.inLimitsUp]
  exact List.mem_append_left _ hi

theorem State.withInLimits_self (s : State) {p : NodePath} (items : List InLimit) (hp : p ≠ []) :
    (s.withInLimits p items).inLimitsUp p = items ++ s.inLimitsUp p.tail := by
  obtain ⟨n, up, rfl⟩ := List.exists_cons_of_ne_nil hp
  have hup : ¬ (n :: up) <:+ up := fun hs => by simpa using hs.length_le
  rw [State.inLimitsUp, s.withInLimits_of_not_suffix items hup]
  simp [State.withInLimits]

theorem State.withInLimits_effectiveTokens {s : State} {p : NodePath} {items : List InLimit}
    {id : LimitId} (h : effectiveTokens items id = effectiveTokens (s.inLimits p) id) :
    ∀ q : NodePath, effectiveTokens ((s.withInLimits p items).inLimitsUp q) id =
      effectiveTokens (s.inLimitsUp q) id
  | [] => rfl
  | n :: up => by
    rw [State.inLimitsUp, State.inLimitsUp, effectiveTokens_append, effectiveTokens_append,
      State.withInLimits_effectiveTokens h up]
    by_cases hq : n :: up = p
    · rw [hq]
      simp [State.withInLimits, h]
    · simp [State.withInLimits, Function.update_of_ne hq]

/-- A task in flight is not below a node below which no task is in flight. -/
theorem not_suffix_of_inFlight {b : Bunch} {s : State} {p q : NodePath} {t : Tree}
    (hb : b.node? p = some t)
    (hf : ¬ (((t.descendants p).filter fun x => x.2.isTask).any
      fun x => (s.node x.1).status.inFlight) = true)
    (hq : b.isTask q = true) (hqf : (s.node q).status.inFlight = true) (hne : q ≠ p) :
    ¬ p <:+ q := by
  intro hs
  obtain ⟨u, hu, hut⟩ := Bunch.exists_of_isTask hq
  refine hf (List.any_eq_true.mpr ⟨(q, u), List.mem_filter.mpr ⟨?_, hut⟩, hqf⟩)
  rcases Tree.mem_walk.mp (Bunch.mem_walk_of_suffix hb hu hs) with heq | hx
  · exact absurd (Prod.ext_iff.mp heq).1 hne
  · exact Tree.mem_walkList.mpr hx

/-! ### The deletion -/

section Delete

variable {b : Bunch} {s : State} {p : NodePath} {t : Tree} {name : String} {target : InLimit}

/-- The in-limits that are left when one is deleted. -/
private def State.restOf (s : State) (p : NodePath) (name : String) : List InLimit :=
  (s.inLimits p).eraseP fun i => i.limitName = name

private theorem tokens_rest (hfind : (s.inLimits p).find? (fun i => i.limitName = name) =
    some target) {id : LimitId} (hid : target.limit ≠ id) (q : NodePath) :
    effectiveTokens ((s.withInLimits p (s.restOf p name)).inLimitsUp q) id =
      effectiveTokens (s.inLimitsUp q) id :=
  State.withInLimits_effectiveTokens (effectiveTokens_eraseP hfind hid) q

/-- When the nearest in-limit of the node itself stays as it is, or the node is not a task in
flight, no holder sees a difference. -/
theorem Accounted.delete_same (h : Accounted b ∅ s) (hb : b.node? p = some t)
    (hfind : (s.inLimits p).find? (fun i => i.limitName = name) = some target)
    (hf : ¬ (((t.descendants p).filter fun x => x.2.isTask).any
      fun x => (s.node x.1).status.inFlight) = true)
    (hsame : p ∈ (s.limit target.limit).holders →
      effectiveTokens (s.restOf p name ++ s.inLimitsUp p.tail) target.limit =
        effectiveTokens (s.inLimitsUp p) target.limit) :
    Accounted b ∅ (s.withInLimits p (s.restOf p name)) := by
  have hne : p ≠ [] := by
    rintro rfl
    cases hb
  have htokens (q : NodePath) (hq : b.isTask q = true) (hqf : (s.node q).status.inFlight = true)
      (id : LimitId) : effectiveTokens ((s.withInLimits p (s.restOf p name)).inLimitsUp q) id =
        effectiveTokens (s.inLimitsUp q) id := by
    by_cases hqp : q = p
    · subst hqp
      by_cases hid : target.limit = id
      · subst hid
        rw [s.withInLimits_self _ hne]
        refine hsame ?_
        rw [h.holds q hq (Set.notMem_empty q)]
        exact ⟨hqf, List.mem_map_of_mem (s.mem_inLimitsUp hne (List.mem_of_find?_eq_some hfind))⟩
      · exact tokens_rest hfind hid q
    · rw [s.withInLimits_of_not_suffix _ (not_suffix_of_inFlight hb hf hq hqf hqp)]
  refine Ledger.rebound h (fun id q hq => ?_) fun q hq _ hqf id => htokens q hq hqf id
  have hq' := h.isTask id q hq
  exact htokens q hq' ((h.holds q hq' (Set.notMem_empty q) id).mp hq).1 id

/-- The tokens of the node itself are moved from the old nearest in-limit to the new one. -/
theorem Accounted.delete_moved (h : Accounted b ∅ s) (hb : b.node? p = some t)
    (hfind : (s.inLimits p).find? (fun i => i.limitName = name) = some target)
    (hf : ¬ (((t.descendants p).filter fun x => x.2.isTask).any
      fun x => (s.node x.1).status.inFlight) = true)
    (hp : p ∈ (s.limit target.limit).holders) {s' : State}
    (hi : s'.inLimits = (s.withInLimits p (s.restOf p name)).inLimits) (hn : s'.node = s.node)
    (hl : s'.limit = Function.update s.limit target.limit
      (match effectiveTokens (s.restOf p name ++ s.inLimitsUp p.tail) target.limit with
      | none => (s.limit target.limit).release (tokensFor (s.inLimitsUp p) target.limit) p
      | some k => ((s.limit target.limit).release
          (tokensFor (s.inLimitsUp p) target.limit) p).acquire k p))
    (hcap : ∀ k, effectiveTokens (s.restOf p name ++ s.inLimitsUp p.tail) target.limit = some k →
      (s.limit target.limit).value - tokensFor (s.inLimitsUp p) target.limit + k ≤
        (s.limit target.limit).limit) :
    Accounted b ∅ s' := by
  have hne : p ≠ [] := by
    rintro rfl
    cases hb
  have hpt : b.isTask p = true := h.isTask _ p hp
  have hpf : (s.node p).status.inFlight = true :=
    ((h.holds p hpt (Set.notMem_empty p) _).mp hp).1
  have hother (q : NodePath) (hq : b.isTask q = true) (hqf : (s.node q).status.inFlight = true)
      (hqp : q ≠ p) : (s.withInLimits p (s.restOf p name)).inLimitsUp q = s.inLimitsUp q :=
    s.withInLimits_of_not_suffix _ (not_suffix_of_inFlight hb hf hq hqf hqp)
  -- the tokens are given back, then the in-limits change, then the new tokens are taken
  have h₁ := Ledger.releaseOne h p target.limit
  rw [insert_empty_eq] at h₁
  have h₂ : Ledger b {p} (fun q => (s.node q).status.inFlight)
      (s.withInLimits p (s.restOf p name)).inLimitsUp (Function.update s.limit target.limit
        ((s.limit target.limit).release (tokensFor (s.inLimitsUp p) target.limit) p)) := by
    refine h₁.rebound (fun id q hq => ?_) fun q hq hqp hqf id => by rw [hother q hq hqf hqp]
    by_cases hqp : q = p
    · subst hqp
      refine tokens_rest hfind ?_ q
      rintro rfl
      simp at hq
    · have hqt := h₁.isTask id q hq
      rw [hother q hqt ((h₁.holds q hqt hqp id).mp hq).1 hqp]
  have hup : (s.withInLimits p (s.restOf p name)).inLimitsUp p =
      s.restOf p name ++ s.inLimitsUp p.tail := s.withInLimits_self _ hne
  -- what the task holds of the other limits
  have hrest (id : LimitId) (hid : id ≠ target.limit) : p ∈ (s.limit id).holders ↔
      (s.node p).status.inFlight = true ∧
        id ∈ ((s.withInLimits p (s.restOf p name)).inLimitsUp p).map InLimit.limit := by
    rw [← effectiveTokens_isSome, tokens_rest hfind hid.symm, effectiveTokens_isSome]
    exact h.holds p hpt (Set.notMem_empty p) id
  rw [Accounted, hn, funext (State.inLimitsUp_congr hi), hl]
  cases hnew : effectiveTokens (s.restOf p name ++ s.inLimitsUp p.tail) target.limit with
  | none =>
    refine h₂.close fun id => ?_
    by_cases hid : id = target.limit
    · subst hid
      rw [Function.update_self, ← effectiveTokens_isSome, hup, hnew]
      simp
    · rw [Function.update_of_ne hid]
      exact hrest id hid
  | some k =>
    have htokens : tokensFor ((s.withInLimits p (s.restOf p name)).inLimitsUp p) target.limit = k := by
      rw [tokensFor, hup, hnew, Option.getD_some]
    have hmem : target.limit ∈
        ((s.withInLimits p (s.restOf p name)).inLimitsUp p).map InLimit.limit := by
      rw [← effectiveTokens_isSome, hup, hnew]
      rfl
    have h₃ := h₂.acquireOne hpt hmem (by
      rw [Function.update_self, htokens, Account.limit_release,
        (h.balanced target.limit).value_release hp]
      exact hcap k hnew)
    rw [htokens, Function.update_self, Function.update_idem, Set.insert_eq_of_mem
      (Set.mem_singleton p)] at h₃
    refine h₃.close fun id => ?_
    by_cases hid : id = target.limit
    · subst hid
      rw [Function.update_self, Account.holders_acquire]
      simp [hpf, hmem]
    · rw [Function.update_of_ne hid]
      exact hrest id hid

/-- The writes of the deletion, after its checks. -/
private theorem delete_writes (h : Accounted b ∅ s) (hb : b.node? p = some t)
    (hfind : (s.inLimits p).find? (fun i => i.limitName = name) = some target)
    (hf : ¬ (((t.descendants p).filter fun x => x.2.isTask).any
      fun x => (s.node x.1).status.inFlight) = true) {old new : Option ℕ}
    (hold : old = if p ∈ (s.limit target.limit).holders then
      effectiveTokens (s.inLimitsUp p) target.limit else none)
    (hnew : new = if old.isSome then
      effectiveTokens (s.restOf p name ++ s.inLimitsUp p.tail) target.limit else none)
    (hcap : ¬ (old.isSome ∧ new.isSome ∧ (s.limit target.limit).value - old.getD 0 + new.getD 0 >
      (s.limit target.limit).limit)) :
    Triple (· = s) (do
        modify fun u => { u with inLimits := Function.update u.inLimits p (s.restOf p name) }
        when (old.isSome ∧ old ≠ new) do
          Limit.decrement target.limit (old.getD 0) p
          when new.isSome (Limit.increment target.limit (new.getD 0) p)
        return true) (fun _ => Accounted b ∅) (fun _ => Accounted b ∅) := by
  refine Triple.bind (Q := fun _ u => u = s.withInLimits p (s.restOf p name))
    (Triple.modify fun u hu => by rw [hu, State.withInLimits]) fun _ =>
      Triple.bind (Q := fun _ => Accounted b ∅) (Triple.when (fun hc => ?_) fun hc u hu => ?_)
        fun _ => Triple.pure fun _ hu => hu
  · -- the task holds tokens of an in-limit that is not the nearest any more
    have hp : p ∈ (s.limit target.limit).holders := by
      by_contra hp
      simp [hold, hp] at hc
    rw [if_pos hp] at hold
    rw [if_pos hc.1] at hnew
    have htokens : old.getD 0 = tokensFor (s.inLimitsUp p) target.limit := by rw [hold, tokensFor]
    rintro _ rfl
    obtain ⟨marks₁, h₁⟩ := exec_decrement target.limit (old.getD 0) p
      (s.withInLimits p (s.restOf p name))
    rw [exec_bind, h₁]
    dsimp only
    cases hk : new with
    | none =>
      refine h.delete_moved hb hfind hf hp rfl rfl ?_ fun k hk' => ?_
      · rw [← hnew, hk, htokens]
        rfl
      · rw [← hnew, hk] at hk'
        cases hk'
    | some k =>
      obtain ⟨marks₂, h₂⟩ := exec_increment target.limit k p
        { s.withInLimits p (s.restOf p name) with
          limit := Function.update s.limit target.limit
            ((s.limit target.limit).release (old.getD 0) p)
          marks := marks₁ }
      have hexec : exec (when (some k).isSome
          (Limit.increment target.limit ((some k).getD 0) p)) _ = _ := h₂
      simp only [State.withInLimits] at hexec ⊢
      rw [hexec]
      refine h.delete_moved hb hfind hf hp rfl rfl ?_ fun k' hk' => ?_
      · rw [← hnew, hk, ← htokens]
        simp only [Function.update_self, Function.update_idem]
      · rw [← hnew, hk, Option.some_inj] at hk'
        subst hk'
        by_contra hlt
        refine hcap ⟨hc.1, by simp [hk], ?_⟩
        rw [htokens, hk, Option.getD_some]
        exact Nat.not_le.mp hlt
  · rw [hu]
    refine h.delete_same hb hfind hf fun hp => ?_
    rw [if_pos hp] at hold
    have hsome : old.isSome := by
      rw [hold, effectiveTokens_isSome]
      exact h.bound target.limit p hp
    rw [if_pos hsome] at hnew
    rw [← hold, ← hnew]
    by_contra hne
    exact hc ⟨hsome, Ne.symm hne⟩

theorem Accounted.deleteInLimit (hb : b.node? p = some t) :
    Keeps (Accounted b ∅) (deleteInLimit p t name) := by
  refine Triple.get_bind fun s hs => ?_
  split
  · exact Triple.pure fun _ hu => hu ▸ hs
  · rename_i target hfind
    refine Triple.ite (fun _ => Triple.throw fun _ hu => hu ▸ hs) fun hf =>
      Triple.ite (fun _ => Triple.throw fun _ hu => hu ▸ hs) fun _ =>
        Triple.ite (fun _ => Triple.throw fun _ hu => hu ▸ hs) fun _ =>
          Triple.ite (fun _ => Triple.throw fun _ hu => hu ▸ hs) fun hcap => ?_
    exact delete_writes hs hb hfind hf rfl rfl hcap

end Delete

/-! ### Every step keeps the ledger -/

private theorem inFlight_of_statusSet {p q : NodePath} {t : Tree} {st : NodeStatus} {s s' : State}
    (h : State.StatusSet p t st s s') (hq : q ≠ p) :
    (s'.node q).status.inFlight = (s.node q).status.inFlight := by
  rw [h.status q, if_neg hq]

private theorem Accounted.onlyTask {b : Bunch} {D : Set NodePath} {p : NodePath} {s s' : State}
    (h : Accounted b D s) (hs : State.OnlyTask p s s') : Accounted b D s' :=
  h.congr hs.limit hs.inLimits fun q _ _ => by rw [hs.status q]

/-- **Every operation keeps the ledger.** -/
theorem accounted_stable (b : Bunch) :
    ServerStable b (Accounted b) fun p s => s.checkInLimitUp p = true where
  mono hD h := Ledger.mono h hD
  silent hq h := h.congr hq.limit hq.inLimits fun p _ _ => by rw [hq.status p]
  ready_silent hq hr := (State.checkInLimitUp_congr hq.limit hq.inLimits _).trans hr
  ready_statusSet hs hr := (State.checkInLimitUp_congr hs.limit hs.inLimits _).trans hr
  ready_of_inFlight hp h hf _ := h.checkInLimitUp hp hf
  container hb ht hs h := h.congr hs.limit hs.inLimits fun q hq _ => by
    refine inFlight_of_statusSet hs fun hqp => ?_
    rw [hqp, Bunch.isTask_of_node? hb, ht] at hq
    cases hq
  calm := by
    intro D p t st s s' hb ht heq _ hs h
    refine h.congr hs.limit hs.inLimits fun q _ _ => ?_
    by_cases hqp : q = p
    · rw [hqp, hs.status p, if_pos rfl, heq]
    · exact inFlight_of_statusSet hs hqp
  cleared _ hc h := Accounted.congr (Ledger.mono h (Set.subset_insert _ _)) hc.limit hc.inLimits
    fun q _ _ => by rw [hc.status q]
  cleared_calm _ _ hc h := h.congr hc.limit hc.inLimits fun q _ _ => by rw [hc.status q]
  cleared_or_forgettable := .inl fun _ hc h => h.onlyTask hc.toOnlyTask
  lowered := by
    intro D p t st s s' hb ht hst hs h
    refine Accounted.congr (Ledger.mono h (Set.subset_insert p D)) hs.limit hs.inLimits
      fun q _ hq => ?_
    exact inFlight_of_statusSet hs fun hqp => hq (hqp ▸ Set.mem_insert p D)
  settled _ hf hl h := h.released hf hl
  raised := by
    intro p t st s u s' hb ht hst hr hs hl h
    have hu : Accounted b {p} u := by
      refine Accounted.congr (Ledger.mono h (Set.empty_subset _)) hs.limit hs.inLimits
        fun q _ hq => ?_
      exact inFlight_of_statusSet hs fun hqp => hq hqp
    have hf : (u.node p).status.inFlight = true := by rw [hs.status p, if_pos rfl, hst]
    have hc : u.checkInLimitUp p = true :=
      (State.checkInLimitUp_congr hs.limit hs.inLimits p).trans hr
    simpa using hu.acquired ((Bunch.isTask_of_node? hb).trans ht) hf hc hl
  touched hp hl h := h.touched hp hl
  attempt := by
    intro p _
    refine Triple.of_forall fun s hs => ((onlyTask_incrementTryNo p).triple s).conseq
      (fun _ hu => hu) (fun _ u hu => ⟨hs.1.onlyTask hu, ?_⟩) fun _ u hu => hs.1.onlyTask hu
    exact (State.checkInLimitUp_congr hu.limit hu.inLimits p).trans hs.2
  unknown _ _ := (onlyTask_markSubmissionUnknown _ _).keeps fun _ _ hu hs => hs.onlyTask hu
  adopt {p password} _ _ := (onlyTask_modifyTask p (fun k => { k with jobPassword := password })
    fun _ => List.Subset.refl _).keeps fun _ _ hu hs => Accounted.onlyTask hs hu
  deleteInLimit hb := Accounted.deleteInLimit hb

/-! ### Runs -/

/-- What may happen to a bunch whose flows stay: a step of the server, a method that a script calls
on a node, or that files move. -/
inductive Operation
  | relink (moved : NodePath → String → Bool)
  | server (a : Action)
  | run (p : NodePath)
  | requeue (p : NodePath) (resetRepeat : Bool)
  | force (p : NodePath) (status : NodeStatus) (recursive : Bool)

/-- The program of an operation. -/
def Operation.program (b : Bunch) (s : State) : Operation → Option (M Unit)
  | relink _ => none
  | server a => a.program b s
  | run p => ((b.node? p).filter Tree.isTask).map fun t => do
    let _ ← Task.run b p t
    pure ()
  | requeue p resetRepeat => (b.node? p).map fun t => Takler.requeue p t resetRepeat
  | force p status recursive => (b.node? p).map fun t => forceNode b p t status recursive

/-- The operations on a bunch, from states in which no task is in flight and the limits are
empty. -/
def Bunch.operations (b : Bunch) : StepSystem State Operation where
  init s := (∀ p, b.isTask p = true → (s.node p).status.inFlight = false) ∧
    ∀ id, (s.limit id).value = 0 ∧ (s.limit id).holders = ∅
  step s o :=
    match o with
    | .relink moved => some { s with moved }
    | o => (o.program b s).map fun m => (m.exec s).2

theorem ServerStable.operation {b : Bunch} {I : Set NodePath → State → Prop}
    {Ready : NodePath → State → Prop} (h : ServerStable b I Ready) {s : State} {o : Operation}
    {m : M Unit} (hm : o.program b s = some m) : Keeps (I ∅) m := by
  cases o with
  | relink _ => cases hm
  | server a => exact h.action hm
  | run p =>
    obtain ⟨t, ht, rfl⟩ := Option.map_eq_some_iff.mp hm
    obtain ⟨hb, ht⟩ := Option.filter_eq_some_iff.mp ht
    exact Keeps.bind (h.sustained.run hb ht) fun _ => .pure _
  | requeue p resetRepeat =>
    obtain ⟨t, hb, rfl⟩ := Option.map_eq_some_iff.mp hm
    exact h.requeue hb resetRepeat
  | force p status recursive =>
    obtain ⟨t, hb, rfl⟩ := Option.map_eq_some_iff.mp hm
    exact h.forceNode hb recursive

theorem accounted_init {b : Bunch} {s : State} (h : b.operations.init s) : Accounted b ∅ s := by
  have hholders (id : LimitId) : (s.limit id).holders = ∅ := (h.2 id).2
  refine ⟨fun id => ?_, fun id => ?_, fun id p hp => ?_, fun id p hp => ?_, fun p hp _ id => ?_⟩
  · rw [Account.Balanced, hholders, (h.2 id).1, Finset.sum_empty]
  · rw [(h.2 id).1]
    exact Nat.zero_le _
  · simp [hholders] at hp
  · simp [hholders] at hp
  · simp [hholders, h.1 p hp]

/-- **Limit accounting.** After every sequence of operations each limit is held by exactly the
tasks in flight that meet an in-limit of it on the way up, counts for each of them the tokens of
the first one met, and counts no more than its size. -/
theorem limits_count_tasks_in_flight {b : Bunch} {s : State}
    (h : b.operations.Reachable StepSystem.Free s) (id : LimitId) :
    (∀ p, p ∈ (s.limit id).holders ↔ b.isTask p = true ∧
      (s.node p).status.inFlight = true ∧ ∃ i ∈ s.inLimitsUp p, i.limit = id) ∧
    (s.limit id).value = ∑ p ∈ (s.limit id).holders, tokensFor (s.inLimitsUp p) id ∧
    (s.limit id).value ≤ (s.limit id).limit := by
  have hs : Accounted b ∅ s := by
    refine StepSystem.Reachable.invariant (fun _ => accounted_init) ?_ h
    rintro s o t hs - ht
    have hprogram (ho : (o.program b s).map (fun m => (m.exec s).2) = some t) : Accounted b ∅ t := by
      obtain ⟨m, hm, rfl⟩ := Option.map_eq_some_iff.mp ho
      exact ((accounted_stable b).operation hm).exec hs
    cases o with
    | relink moved =>
      cases ht
      exact hs.congr rfl rfl fun _ _ _ => rfl
    | _ => exact hprogram ht
  refine ⟨fun p => ⟨fun hp => ?_, fun hp => ?_⟩, hs.balanced id, hs.capped id⟩
  · have hpt := hs.isTask id p hp
    refine ⟨hpt, ?_⟩
    simpa using (hs.holds p hpt (Set.notMem_empty p) id).mp hp
  · rw [hs.holds p hp.1 (Set.notMem_empty p) id]
    simpa using hp.2

/-- A flow with a limit of three tokens. A container below takes one of them for each of its tasks,
and one of the two tasks takes two itself. -/
def limitedTree : Tree :=
  .node { name := "f", kind := .flow, limits := [⟨"l", 3⟩] }
    [.node { name := "c", kind := .container
             inLimits := [⟨"l", none, 1, (["f"], "l"), Nat.one_pos⟩] }
      [.node { name := "t", kind := .task
               inLimits := [⟨"l", some "/f", 2, (["f"], "l"), Nat.two_pos⟩] } [],
       .node { name := "u", kind := .task } []]]

theorem limitedTree_wf : limitedTree.WF := by decide

/-- The bunch with the one flow. -/
def limitedBunch : Bunch :=
  Bunch.empty.addFlow limitedTree limitedTree_wf rfl (by simp [Bunch.empty])

/-- The state after it was loaded. -/
def limitedState : State := (State.empty (Draw.fixed false)).install limitedBunch limitedTree "g"

theorem limitedState_init : limitedBunch.operations.init limitedState := by
  refine ⟨fun p _ => ?_, fun id => ?_⟩
  · simp only [limitedState, State.install]
    split_ifs
    · split <;> rfl
    · rfl
  · simp only [limitedState, State.install]
    split_ifs <;> exact ⟨rfl, rfl⟩

/-- Both tasks run. -/
def limitedRun : List Operation :=
  [.server (.command none (.begin "f" false 0 0)), .run ["t", "c", "f"],
    .server (.command none (.run ["f", "c", "u"] false))]

theorem limitedRun_counts_three : ∃ s,
    limitedBunch.operations.run StepSystem.Free limitedState limitedRun = some s ∧
      (s.limit (["f"], "l")).holders = {["t", "c", "f"], ["u", "c", "f"]} ∧
      (s.limit (["f"], "l")).value = 3 ∧
      (s.limit (["f"], "l")).value =
        ∑ p ∈ (s.limit (["f"], "l")).holders, tokensFor (s.inLimitsUp p) (["f"], "l") := by
  obtain ⟨s, hs⟩ := Option.isSome_iff_exists.mp
    (show (limitedBunch.operations.run StepSystem.Free limitedState limitedRun).isSome by
      decide +kernel)
  have hl : (limitedBunch.operations.run StepSystem.Free limitedState limitedRun).map
      (fun s => ((s.limit (["f"], "l")).holders, (s.limit (["f"], "l")).value)) =
        some ({["t", "c", "f"], ["u", "c", "f"]}, 3) := by decide +kernel
  rw [hs, Option.map_some, Option.some_inj, Prod.mk.injEq] at hl
  exact ⟨s, hs, hl.1, hl.2, (limits_count_tasks_in_flight
    (StepSystem.reachable_of_run _ limitedState_init hs) (["f"], "l")).2.1⟩

end Takler
