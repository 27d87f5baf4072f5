import Takler.Server.Credentials

/-!
# Operator calls follow the credential files

A cached set of values is used only when the file has the fingerprint that it had at the `stat`
before the values were read. Since no edit gives a file a fingerprint for the second time, the file
then has not been edited in between, and the values are those of its content. This is the invariant
of a cache (`CredentialFile.Good`); it survives every edit and every operation.

## Main definitions

* `World.Later`: the versions and the log only grow.
* `CredentialFile.Good`: the invariant of a cache.

## Main results

* `CredentialFile.read_spec`: what one `read` returns.
* `authorize_follows_files`: a call is accepted only for entries that the files have during the
  call, and not when every read of a required file fails.
-/

namespace Takler.Auth

open Interleaved

variable {P : Platform}

/-! ### Worlds -/

namespace World

variable {w w₁ w₂ w₃ : World} {path : CodePoints}

/-- The versions and the log of each file only grow. -/
structure Later (w w' : World) : Prop where
  history : ∀ path, w.history path <:+ w'.history path
  log : ∀ path, w.log path <+: w'.log path

theorem Later.refl (w : World) : w.Later w := ⟨fun _ => List.suffix_rfl, fun _ => List.prefix_rfl⟩

theorem Later.trans (h : w₁.Later w₂) (h' : w₂.Later w₃) : w₁.Later w₃ :=
  ⟨fun p => (h.history p).trans (h'.history p), fun p => (h.log p).trans (h'.log p)⟩

theorem later_note (w : World) (path : CodePoints) (x : Attempt) : w.Later (w.note path x) where
  history _ := List.suffix_rfl
  log q := by
    by_cases hq : q = path
    · subst hq
      simp [note]
    · simp [note, Function.update_of_ne hq]

theorem Edit.log_eq (h : w₁.Edit w₂) : w₂.log = w₁.log := by
  obtain ⟨p, v, -, rfl⟩ := h
  rfl

theorem Edit.later (h : w₁.Edit w₂) : w₁.Later w₂ where
  history q := by
    obtain ⟨p, v, -, rfl⟩ := h
    by_cases hq : q = p
    · subst hq
      simp [edit]
    · simp [edit, Function.update_of_ne hq]
  log q := by rw [h.log_eq]

theorem during_subset {w' w'' : World} (h : w₁.Later w₂) (h' : w₂.Later w') (h'' : w'.Later w'')
    (path : CodePoints) : w₂.during w' path ⊆ w₁.during w'' path := by
  intro v hv
  obtain ⟨newer, hnewer⟩ := h''.history path
  have h₁ := (h.history path).length_le
  have h₂ := (h'.history path).length_le
  unfold during at hv ⊢
  rw [← hnewer, List.length_append]
  have hle : newer.length + ((w'.history path).length - (w₂.history path).length + 1)
      ≤ newer.length + (w'.history path).length - (w₁.history path).length + 1 := by omega
  refine List.take_subset_take_left _ hle ?_
  rw [List.take_length_add_append]
  exact List.mem_append_right newer hv

/-- The version that is seen at a moment in between. -/
theorem mem_during {w' : World} (h : w.Later w₁) (h' : w₁.Later w') {v : Version}
    (hv : w₁.current path = some v) : v ∈ w.during w' path := by
  refine during_subset h (Later.refl w₁) h' path ?_
  obtain ⟨older, holder⟩ := List.head?_eq_some_iff.mp hv
  rw [during, holder]
  simp

theorem attempts_trans (h : w₁.Later w₂) (h' : w₂.Later w₃) (path : CodePoints) :
    w₁.attempts w₃ path = w₁.attempts w₂ path ++ w₂.attempts w₃ path := by
  obtain ⟨l, hl⟩ := h.log path
  obtain ⟨l', hl'⟩ := h'.log path
  simp [attempts, ← hl', ← hl]

theorem attempts_of_log_eq (h : w₂.log = w₁.log) (path : CodePoints) :
    w₁.attempts w₂ path = [] := by
  simp [attempts, h]

theorem attempts_note (w : World) (p : CodePoints) (x : Attempt) (path : CodePoints) :
    w.attempts (w.note p x) path = if path = p then [x] else [] := by
  by_cases hp : path = p
  · subst hp
    simp [attempts, note]
  · simp [attempts, note, hp]

end World

/-! ### Attempts -/

/-- Every read fails: a `stat` that succeeds is followed by a `read_text` that fails. -/
def AllFail (attempts : List Attempt) : Prop :=
  ∀ before after, attempts = before ++ .statted :: after → after.head? = some .readFailed

/-- No part of a read is missing at the beginning. -/
def Whole (attempts : List Attempt) : Prop := attempts.head? ≠ some .readFailed

theorem Whole.append {l l' : List Attempt} (h : Whole l) (h' : Whole l') : Whole (l ++ l') := by
  cases l with
  | nil => exact h'
  | cons x l => exact h

/-- The log of one file after one or two operations on a file. -/
theorem whole_ite {p : Prop} [Decidable p] {x : Attempt} {l : List Attempt} (hx : x ≠ .readFailed) :
    Whole (if p then x :: l else []) := by
  split_ifs
  · exact fun h => hx (Option.some.inj h)
  · exact nofun

theorem not_allFail_append_left {l l' : List Attempt} (h : ¬ AllFail l') : ¬ AllFail (l ++ l') :=
  fun hall => h fun before after hl' =>
    hall (l ++ before) after (by rw [hl', List.append_assoc])

theorem not_allFail_append_right {l l' : List Attempt} (h : ¬ AllFail l) (h' : Whole l') :
    ¬ AllFail (l ++ l') := fun hall => h fun before after hl => by
  have hafter := hall before (after ++ l') (by rw [hl, List.append_assoc, List.cons_append])
  cases after with
  | nil => exact absurd hafter h'
  | cons x after => exact hafter

/-! ### One file -/

/-- The cached values are those of the file, if it has the cached fingerprint. -/
def CredentialFile.Good (P : Platform) (w : World) (c : CredentialFile) : Prop :=
  ∀ path, c.path = some path → ∀ f, c.fingerprint = some f →
    f ∈ (w.history path).map Version.fingerprint ∧
      ∀ v, w.current path = some v → v.fingerprint = f → c.values = v.entries P

/-- What a content that was read between two worlds says about the file. -/
structure Reads (P : Platform) (w w' : World) (path : Option CodePoints)
    (content : CredentialFileContent) : Prop where
  configured : content.configured = path.isSome
  succeeded : content.error = none → ∀ p, path = some p →
    (∃ v ∈ w.during w' p, content.values = v.entries P) ∧ ¬ AllFail (w.attempts w' p)
  failed : content.error ≠ none → content.values = ∅
  unconfigured : path = none → content.values = ∅

/-- What `read` does. -/
structure CredentialFile.Outcome (P : Platform) (w : World) (c : CredentialFile)
    (r : CredentialFileContent × CredentialFile) (w' : World) : Prop where
  later : w.Later w'
  path : r.2.path = c.path
  good : r.2.Good P w'
  whole : ∀ p, Whole (w.attempts w' p)
  reads : Reads P w w' c.path r.1

namespace CredentialFile

variable {c : CredentialFile} {w w' w'' : World}

theorem Good.edit (h : c.Good P w) (he : w.Edit w') : c.Good P w' := by
  obtain ⟨q, u, hu, rfl⟩ := he
  intro path hpath f hf
  obtain ⟨hmem, hvalues⟩ := h path hpath f hf
  by_cases hq : path = q
  · subst hq
    simp only [World.current, World.edit, Function.update_self]
    refine ⟨List.mem_cons_of_mem _ hmem, fun v hv hvf => ?_⟩
    -- the edit has a fingerprint of its own
    cases hv
    exact absurd (hvf ▸ hmem) hu
  · simp only [World.current, World.edit, Function.update_of_ne hq]
    exact ⟨hmem, hvalues⟩

theorem Good.of_history_eq (h : c.Good P w) (hw : w'.history = w.history) : c.Good P w' := by
  unfold Good World.current at *
  rw [hw]
  exact h

theorem history_of_act {i : FileOp} {r : i.Answer} (h : act P w i r w') :
    w'.history = w.history := by
  cases i with
  | stat path =>
    cases r with
    | error e =>
      rw [show w' = w.note path .statFailed from h]
      rfl
    | ok f =>
      rw [h.2]
      rfl
  | readText path =>
    cases r with
    | error e =>
      rw [show w' = w.note path .readFailed from h]
      rfl
    | ok t =>
      rw [h.2]
      rfl

theorem Outcome.edit {r : CredentialFileContent × CredentialFile} (h : Outcome P w c r w')
    (he : w'.Edit w'') : Outcome P w c r w'' where
  later := h.later.trans he.later
  path := h.path
  good := h.good.edit he
  whole p := by
    rw [World.attempts_trans h.later he.later, World.attempts_of_log_eq he.log_eq, List.append_nil]
    exact h.whole p
  reads :=
    { h.reads with
      succeeded := fun herr p hp => by
        obtain ⟨⟨v, hv, hvalues⟩, hfail⟩ := h.reads.succeeded herr p hp
        rw [World.attempts_trans h.later he.later, World.attempts_of_log_eq he.log_eq,
          List.append_nil]
        exact ⟨⟨v, World.during_subset (.refl w) h.later he.later p hv, hvalues⟩, hfail⟩ }

/-- A failure leaves nothing in the cache. -/
theorem outcome_failure {path reason : CodePoints} (hpath : c.path = some path)
    (hlater : w.Later w') (hwhole : ∀ p, Whole (w.attempts w' p)) :
    Outcome P w c (c.failure path reason) w' where
  later := hlater
  path := rfl
  good _ _ _ hf := nomatch hf
  whole := hwhole
  reads :=
    { configured := by rw [hpath]; rfl
      succeeded := fun h => nomatch h
      failed := fun _ => rfl
      unconfigured := fun _ => rfl }

/-- The second half of a read: the file was found with a fingerprint, and is read now. -/
theorem reload_spec {path : CodePoints} {f : Fingerprint} {w₁ : World} (hpath : c.path = some path)
    (hlater : w.Later w₁) (hlog : ∀ p, w.attempts w₁ p = if p = path then [.statted] else [])
    (hf : f ∈ (w₁.history path).map Version.fingerprint) :
    (setting P).Ensures (c.reload path f) w₁ (Outcome P w c) := by
  refine .call (I := fun w₂ => w₁.Later w₂ ∧ w₂.log = w₁.log) ⟨.refl w₁, rfl⟩
    (fun w₂ w₃ h he => ⟨h.1.trans (World.Edit.later he), (World.Edit.log_eq he).trans h.2⟩) ?_
  rintro w₂ r w₃ ⟨h₁₂, hlog₂⟩ hact
  have h₀₂ := hlater.trans h₁₂
  have hattempts : ∀ x p,
      w.attempts (w₂.note path x) p = if p = path then [.statted, x] else [] := by
    intro x p
    rw [World.attempts_trans h₀₂ (w₂.later_note path x), World.attempts_trans hlater h₁₂,
      World.attempts_of_log_eq hlog₂, World.attempts_note, hlog]
    split_ifs <;> rfl
  have hwhole : ∀ x p, Whole (w.attempts (w₂.note path x) p) := fun x p =>
    hattempts x p ▸ whole_ite (by decide)
  cases r with
  | error reason =>
    rw [show w₃ = w₂.note path .readFailed from hact]
    exact .done (outcome_failure hpath (h₀₂.trans (w₂.later_note path _)) (hwhole _))
      fun _ _ => Outcome.edit
  | ok text =>
    obtain ⟨htext, rfl⟩ := hact
    obtain ⟨v, hv, htext⟩ := Option.bind_eq_some_iff.mp htext
    have hvalues : parseCredentialLines text = v.entries P := by
      rw [Version.entries, htext, Option.map_some, Option.getD_some]
    refine .done ?_ fun _ _ => Outcome.edit
    refine ⟨h₀₂.trans (w₂.later_note path _), rfl, ?_, hwhole _, ?_⟩
    · intro q hq g hg
      cases hpath.symm.trans hq
      cases hg
      refine ⟨((h₁₂.history path).map _).subset hf, fun u hu _ => ?_⟩
      cases hv.symm.trans hu
      exact hvalues
    · refine ⟨by rw [hpath]; rfl, fun _ p hp => ?_, fun h => absurd rfl h, fun h => ?_⟩
      · cases hpath.symm.trans hp
        refine ⟨⟨v, World.mem_during h₀₂ (w₂.later_note path _) hv, hvalues⟩, fun hall => ?_⟩
        rw [hattempts, if_pos rfl] at hall
        cases hall [] [.read] rfl
      · cases hpath.symm.trans h

/-- **One read.** A content that is returned without an error is that of a version which the file
has during the read, and the cache stays good. -/
theorem read_spec (hc : c.Good P w) : (setting P).Ensures c.read w (Outcome P w c) := by
  unfold read
  split
  case h_1 hpath =>
    refine .done ?_ fun _ _ => Outcome.edit
    refine ⟨.refl w, rfl, hc, fun p => ?_, ?_⟩
    · rw [World.attempts_of_log_eq rfl]
      exact nofun
    · refine ⟨by rw [hpath]; rfl, fun _ p hp => ?_, fun h => absurd rfl h, fun _ => rfl⟩
      cases hpath.symm.trans hp
  case h_2 path hpath =>
    refine .call (I := fun w₁ => w.Later w₁ ∧ w₁.log = w.log ∧ c.Good P w₁) ⟨.refl w, rfl, hc⟩
      (fun w₁ w₂ h he => ⟨h.1.trans (World.Edit.later he), (World.Edit.log_eq he).trans h.2.1,
        h.2.2.edit he⟩) ?_
    rintro w₁ r w₂ ⟨h₀₁, hlog₁, hc₁⟩ hact
    have hattempts : ∀ x p, w.attempts (w₁.note path x) p = if p = path then [x] else [] := by
      intro x p
      rw [World.attempts_trans h₀₁ (w₁.later_note path x), World.attempts_of_log_eq hlog₁,
        World.attempts_note, List.nil_append]
    cases r with
    | error reason =>
      rw [show w₂ = w₁.note path .statFailed from hact]
      exact .done (outcome_failure hpath (h₀₁.trans (w₁.later_note path _)) fun p =>
        hattempts _ p ▸ whole_ite (by decide)) fun _ _ => Outcome.edit
    | ok f =>
      obtain ⟨hf, rfl⟩ := hact
      obtain ⟨v, hv, rfl⟩ := Option.map_eq_some_iff.mp hf
      have h₀₂ := h₀₁.trans (w₁.later_note path .statted)
      change (setting P).Ensures (if some v.fingerprint = c.fingerprint then _ else _) _ _
      split_ifs with hcached
      · -- the file is as it was when the values were read
        obtain ⟨-, hvalues⟩ := hc₁ path hpath v.fingerprint hcached.symm
        refine .done ?_ fun _ _ => Outcome.edit
        refine ⟨h₀₂, rfl, hc₁.of_history_eq rfl,
          fun p => hattempts _ p ▸ whole_ite (by decide), ?_⟩
        refine ⟨by rw [hpath]; rfl, fun _ p hp => ?_, fun h => absurd rfl h, fun h => ?_⟩
        · cases hpath.symm.trans hp
          refine ⟨⟨v, World.mem_during h₀₁ (w₁.later_note path _) hv, hvalues v hv rfl⟩,
            fun hall => ?_⟩
          rw [hattempts, if_pos rfl] at hall
          cases hall [] [] rfl
        · cases hpath.symm.trans h
      · refine reload_spec hpath h₀₂ (hattempts .statted) ?_
        obtain ⟨older, holder⟩ := List.head?_eq_some_iff.mp hv
        change _ ∈ (w₁.history path).map _
        rw [holder]
        exact List.mem_cons_self

end CredentialFile

/-! ### The store -/

/-- A cache stays good whatever is executed. -/
theorem good_of_exec {α : Type} {p : Script α} {a : α} {w w' : World} {c : CredentialFile}
    (h : (setting P).Exec p w a w') (hc : c.Good P w) : c.Good P w' :=
  h.invariant (I := fun w => c.Good P w) (fun _ _ hc he => hc.edit he)
    (fun _ _ _ _ hc ha => hc.of_history_eq (CredentialFile.history_of_act ha)) hc

/-- A value of a content is an entry of the file during the read. -/
theorem Reads.exists_entry {w w' : World} {path : Option CodePoints}
    {content : CredentialFileContent} (h : Reads P w w' path content) {t : CodePoints}
    (ht : t ∈ content.values) : ∃ p, path = some p ∧ ∃ v ∈ w.during w' p, t ∈ v.entries P := by
  have herr : content.error = none := by
    by_contra herr
    rw [h.failed herr] at ht
    exact absurd ht (Finset.notMem_empty t)
  cases hpath : path with
  | none =>
    rw [h.unconfigured hpath] at ht
    exact absurd ht (Finset.notMem_empty t)
  | some p =>
    obtain ⟨⟨v, hv, hvalues⟩, -⟩ := h.succeeded herr p hpath
    exact ⟨p, rfl, v, hv, hvalues ▸ ht⟩

namespace CredentialStore

variable {s s' s'' : CredentialStore} {w w' w'' : World}

/-- Both caches are good. -/
def Good (P : Platform) (w : World) (s : CredentialStore) : Prop :=
  s.secret.Good P w ∧ s.whitelist.Good P w

/-- What every method of the store keeps. -/
structure Kept (P : Platform) (w : World) (s : CredentialStore) (w' : World)
    (s' : CredentialStore) : Prop where
  later : w.Later w'
  secretPath : s'.secret.path = s.secret.path
  whitelistPath : s'.whitelist.path = s.whitelist.path
  good : s'.Good P w'
  whole : ∀ p, Whole (w.attempts w' p)

theorem Kept.refl (hs : s.Good P w) : Kept P w s w s where
  later := .refl w
  secretPath := rfl
  whitelistPath := rfl
  good := hs
  whole p := by
    rw [World.attempts_of_log_eq rfl]
    exact nofun

theorem Kept.trans (h : Kept P w s w' s') (h' : Kept P w' s' w'' s'') : Kept P w s w'' s'' where
  later := h.later.trans h'.later
  secretPath := h'.secretPath.trans h.secretPath
  whitelistPath := h'.whitelistPath.trans h.whitelistPath
  good := h'.good
  whole p := by
    rw [World.attempts_trans h.later h'.later]
    exact (h.whole p).append (h'.whole p)

theorem Kept.edit (h : Kept P w s w' s') (he : w'.Edit w'') : Kept P w s w'' s' where
  later := h.later.trans he.later
  secretPath := h.secretPath
  whitelistPath := h.whitelistPath
  good := ⟨h.good.1.edit he, h.good.2.edit he⟩
  whole p := by
    rw [World.attempts_trans h.later he.later, World.attempts_of_log_eq he.log_eq, List.append_nil]
    exact h.whole p

theorem readSecretSet_spec (hs : s.Good P w) : (setting P).Ensures s.readSecretSet w
    fun r w' => Kept P w s w' r.2 ∧ Reads P w w' s.secret.path r.1 := by
  refine .map (p := s.secret.read) (f := fun x => (x.1, { s with secret := x.2 })) ?_
  intro r w' h
  have hr := CredentialFile.read_spec hs.1 r w' h
  exact ⟨⟨hr.later, hr.path, rfl, ⟨hr.good, good_of_exec h hs.2⟩, hr.whole⟩, hr.reads⟩

theorem readWhitelist_spec (hs : s.Good P w) : (setting P).Ensures s.readWhitelist w
    fun r w' => Kept P w s w' r.2 ∧ Reads P w w' s.whitelist.path r.1 := by
  refine .map (p := s.whitelist.read) (f := fun x => (x.1, { s with whitelist := x.2 })) ?_
  intro r w' h
  have hr := CredentialFile.read_spec hs.2 r w' h
  exact ⟨⟨hr.later, rfl, hr.path, ⟨good_of_exec h hs.1, hr.good⟩, hr.whole⟩, hr.reads⟩

/-- A secret is verified only if it is an entry of the secret file. -/
theorem verifySecret_spec (hs : s.Good P w) (t : CodePoints) :
    (setting P).Ensures (s.verifySecret (.text t)) w fun r w' => Kept P w s w' r.2 ∧
      (r.1 = true → ∃ p, s.secret.path = some p ∧ ∃ v ∈ w.during w' p, t ∈ v.entries P) := by
  refine .map (p := s.readSecretSet)
    (f := fun x => (decide (∃ secret ∈ x.1.values, t.encode = secret.encode), x.2)) ?_
  refine (readSecretSet_spec hs).mono fun r w' h => ⟨h.1, fun hverified => ?_⟩
  obtain ⟨secret, hsecret, hencode⟩ := of_decide_eq_true hverified
  rw [CodePoints.encode_injective hencode]
  exact h.2.exists_entry hsecret

/-- A user is listed only if it is an entry of the whitelist file, when there is one. -/
theorem isWhitelisted_spec (hs : s.Good P w) (user : CodePoints) :
    (setting P).Ensures (s.isWhitelisted (some user)) w fun r w' => Kept P w s w' r.2 ∧
      (r.1 = true → ∀ p, s.whitelist.path = some p →
        ∃ v ∈ w.during w' p, user ∈ v.entries P) := by
  have hprog : s.isWhitelisted (some user) = s.readWhitelist >>= fun x =>
      .done (if ¬ x.1.configured then true else decide (user ∈ x.1.values), x.2) := by
    refine congrArg (s.readWhitelist >>= ·) (funext fun x => ?_)
    by_cases hx : x.1.configured = true
    · rw [if_neg (not_not.mpr hx)]
      exact if_neg (not_not.mpr hx)
    · rw [if_pos hx]
      exact if_pos hx
  rw [hprog]
  refine .map ((readWhitelist_spec hs).mono fun r w' h => ⟨h.1, fun hlisted p hp => ?_⟩)
  have hconfigured : r.1.configured = true := by rw [h.2.configured, hp]; rfl
  rw [if_neg (not_not.mpr hconfigured)] at hlisted
  obtain ⟨q, hq, hv⟩ := h.2.exists_entry (of_decide_eq_true hlisted)
  cases hp.symm.trans hq
  exact hv

/-- What the decision about an operator's call rests on. -/
structure Decision (P : Platform) (w : World) (s : CredentialStore)
    (secret user : Option CodePoints) (r : Option RejectionReason × CredentialStore) (w' : World) :
    Prop where
  kept : Kept P w s w' r.2
  secret_mem : r.1 = none → ∃ t, secret = some t ∧ ∃ p, s.secret.path = some p ∧
    (∃ v ∈ w.during w' p, t ∈ v.entries P) ∧ ¬ AllFail (w.attempts w' p)
  user_mem : r.1 = none → ∃ t, user = some t ∧ ∀ p, s.whitelist.path = some p →
    (∃ v ∈ w.during w' p, t ∈ v.entries P) ∧ ¬ AllFail (w.attempts w' p)

variable {secret user : Option CodePoints}

theorem Decision.edit {r : Option RejectionReason × CredentialStore}
    (h : Decision P w s secret user r w') (he : w'.Edit w'') :
    Decision P w s secret user r w'' := by
  have hmono : ∀ {p : CodePoints} {t : CodePoints},
      (∃ v ∈ w.during w' p, t ∈ v.entries P) ∧ ¬ AllFail (w.attempts w' p) →
      (∃ v ∈ w.during w'' p, t ∈ v.entries P) ∧ ¬ AllFail (w.attempts w'' p) := by
    rintro p t ⟨⟨v, hv, ht⟩, hfail⟩
    rw [World.attempts_trans h.kept.later he.later, World.attempts_of_log_eq he.log_eq,
      List.append_nil]
    exact ⟨⟨v, World.during_subset (.refl w) h.kept.later he.later p hv, ht⟩, hfail⟩
  refine ⟨h.kept.edit he, fun hr => ?_, fun hr => ?_⟩
  · obtain ⟨t, ht, p, hp, hmem⟩ := h.secret_mem hr
    exact ⟨t, ht, p, hp, hmono hmem⟩
  · obtain ⟨t, ht, hmem⟩ := h.user_mem hr
    exact ⟨t, ht, fun p hp => hmono (hmem p hp)⟩

/-- A refusal. -/
theorem decision_refused {reason : RejectionReason} (h : Kept P w s w' s') :
    (setting P).Ensures (.done (some reason, s')) w' (Decision P w s secret user) :=
  .done ⟨h, nofun, nofun⟩ fun _ _ => Decision.edit

/-- The decision after the two files have been read without an error. -/
theorem checkOperator_spec {secret user : CodePoints} {w₁ w₂ : World} {s₁ s₂ : CredentialStore}
    {secretContent whitelistContent : CredentialFileContent} (h₁ : Kept P w s w₁ s₁)
    (h₂ : Kept P w₁ s₁ w₂ s₂) (hsecret : Reads P w w₁ s.secret.path secretContent)
    (hwhitelist : Reads P w₁ w₂ s.whitelist.path whitelistContent) :
    (setting P).Ensures (s₂.checkOperator secretContent whitelistContent secret user) w₂
      (Decision P w s (some secret) (some user)) := by
  have h₀₂ := h₁.trans h₂
  unfold checkOperator
  split_ifs with herror hconfigured
  · exact decision_refused h₀₂
  swap
  · exact decision_refused h₀₂
  refine .bind (verifySecret_spec h₂.good secret) fun r₃ w₃ hverify => ?_
  obtain ⟨verified, s₃⟩ := r₃
  obtain ⟨h₃, hverify⟩ := hverify
  dsimp only at h₃ hverify ⊢
  split_ifs with hverified
  swap
  · exact decision_refused (h₀₂.trans h₃)
  refine .bind (isWhitelisted_spec h₃.good user) fun r₄ w₄ hlist => ?_
  obtain ⟨listed, s₄⟩ := r₄
  obtain ⟨h₄, hlist⟩ := hlist
  dsimp only at h₄ hlist ⊢
  split_ifs with hlisted
  swap
  · exact decision_refused ((h₀₂.trans h₃).trans h₄)
  have h₂₄ := h₃.trans h₄
  rw [Bool.or_eq_true, not_or, Option.not_isSome_iff_eq_none, Option.not_isSome_iff_eq_none]
    at herror
  refine .done ⟨h₀₂.trans h₂₄, fun _ => ⟨secret, rfl, ?_⟩, fun _ => ⟨user, rfl, fun p hp => ?_⟩⟩
    fun _ _ => Decision.edit
  · obtain ⟨p, hp, v, hv, hmem⟩ := hverify hverified
    rw [h₀₂.secretPath] at hp
    refine ⟨p, hp, ⟨v, World.during_subset h₀₂.later h₃.later h₄.later p hv, hmem⟩, ?_⟩
    rw [World.attempts_trans h₁.later (h₂.trans h₂₄).later]
    exact not_allFail_append_right (hsecret.succeeded herror.1 p hp).2 ((h₂.trans h₂₄).whole p)
  · obtain ⟨v, hv, hmem⟩ := hlist hlisted p (by rw [(h₀₂.trans h₃).whitelistPath, hp])
    refine ⟨⟨v, World.during_subset (h₀₂.trans h₃).later h₄.later (.refl w₄) p hv, hmem⟩, ?_⟩
    rw [World.attempts_trans h₁.later (h₂.trans h₂₄).later,
      World.attempts_trans h₂.later h₂₄.later]
    exact not_allFail_append_left
      (not_allFail_append_right (hwhitelist.succeeded herror.2 p hp).2 (h₂₄.whole p))

theorem authorizeOperator_spec (hs : s.Good P w) :
    (setting P).Ensures (s.authorizeOperator secret user) w (Decision P w s secret user) := by
  unfold authorizeOperator
  split
  · refine .bind (readSecretSet_spec hs) fun r₁ w₁ h₁ => ?_
    obtain ⟨content₁, s₁⟩ := r₁
    refine .bind (readWhitelist_spec h₁.1.good) fun r₂ w₂ h₂ => ?_
    obtain ⟨content₂, s₂⟩ := r₂
    exact checkOperator_spec h₁.1 h₂.1 h₁.2 (h₁.1.whitelistPath ▸ h₂.2)
  · exact decision_refused (.refl hs)

end CredentialStore

/-! ### The gate -/

section Gate

variable {g : AuthGate} {w w' : World} {method : String} {metadata : Option (List MetadataItem)}
  {peer : Option CodePoints}

/-- A result that is returned without looking at the files. -/
theorem good_done {r : AuthOutcome × AuthGate} (h : r.2.credentialStore.Good P w) :
    (setting P).Ensures (.done r) w fun r w' => r.2.credentialStore.Good P w' :=
  .done h fun _ _ h he => ⟨h.1.edit he, h.2.edit he⟩

/-- The decision about a call that is neither public nor a child's. -/
theorem authorize_decision (hs : g.credentialStore.Good P w) (henabled : g.authMode = .enabled)
    (hpublic : privilegeForMethod method g.privilegeTable ≠ .publicAccess)
    (hchild : privilegeForMethod method g.privilegeTable ≠ .child) :
    (setting P).Ensures (g.authorize P method metadata peer) w fun r w' =>
      g.credentialStore.Decision P w (CallCredentials.fromMetadata P metadata peer).secret
        (CallCredentials.fromMetadata P metadata peer).user
        (r.1.rejection, r.2.credentialStore) w' := by
  unfold AuthGate.authorize AuthGate.rejectReason
  dsimp only
  rw [if_neg hpublic, if_neg (not_not.mpr henabled), if_neg hchild]
  refine .map (f := fun x : Option RejectionReason × AuthGate =>
    (AuthOutcome.mk (some (CallCredentials.fromMetadata P metadata peer)) x.1, x.2)) ?_
  refine .map (f := fun x : Option RejectionReason × CredentialStore =>
    (x.1, { g with credentialStore := x.2 })) ?_
  exact CredentialStore.authorizeOperator_spec hs

/-- Whatever is called, the caches stay good. -/
theorem authorize_good (hs : g.credentialStore.Good P w) :
    (setting P).Ensures (g.authorize P method metadata peer) w
      fun r w' => r.2.credentialStore.Good P w' := by
  by_cases hpublic : privilegeForMethod method g.privilegeTable = .publicAccess
  · unfold AuthGate.authorize
    dsimp only
    rw [if_pos hpublic]
    exact good_done hs
  by_cases henabled : g.authMode = .enabled
  · by_cases hchild : privilegeForMethod method g.privilegeTable = .child
    · unfold AuthGate.authorize AuthGate.rejectReason
      dsimp only
      rw [if_neg hpublic, if_neg (not_not.mpr henabled), if_pos hchild]
      split_ifs
      · exact good_done hs
      · exact good_done hs
    · exact (authorize_decision hs henabled hpublic hchild).mono fun _ _ h => h.kept.good
  · unfold AuthGate.authorize
    dsimp only
    rw [if_neg hpublic, if_pos henabled]
    exact good_done hs

theorem validateAtStartup_good {s : CredentialStore} {enabled : Bool} (hs : s.Good P w) :
    (setting P).Ensures (s.validateAtStartup enabled) w fun r w' => r.2.Good P w' := by
  have hdone : ∀ {x : Except CodePoints Unit × CredentialStore} {w₁ : World}, x.2.Good P w₁ →
      (setting P).Ensures (.done x) w₁ fun r w' => r.2.Good P w' := fun h =>
    .done h fun _ _ h he => ⟨h.1.edit he, h.2.edit he⟩
  unfold CredentialStore.validateAtStartup
  by_cases henabled : enabled = true
  swap
  · rw [if_pos henabled]
    exact hdone hs
  rw [if_neg (not_not.mpr henabled)]
  refine .bind (CredentialStore.readSecretSet_spec hs) fun r w₁ h => ?_
  obtain ⟨content, s₁⟩ := r
  dsimp only at h ⊢
  split
  · exact hdone (x := (_, s₁)) h.1.good
  · split
    · exact hdone (x := (_, s₁)) h.1.good
    · split
      · exact hdone (x := (_, s₁)) h.1.good
      · exact hdone (x := (_, s₁)) h.1.good

/-- The caches of a server are good at all times between calls. -/
theorem Server.Reachable.good {s : Server} (h : s.Reachable P) :
    s.gate.credentialStore.Good P s.world := by
  obtain ⟨mode, secretFile, whitelistFile, table, w, h⟩ := h
  induction h with
  | refl =>
    refine ⟨fun path hpath f hf => ?_, fun path hpath f hf => ?_⟩
    · cases hf
    · cases hf
  | tail _ hstep ih =>
    cases hstep with
    | edit he => exact ⟨ih.1.edit he, ih.2.edit he⟩
    | authorize h => exact authorize_good ih _ _ h
    | validate h => exact validateAtStartup_good ih _ _ h

end Gate

/-- A version from a moment after an edit is the edited one or a newer one. -/
theorem World.exists_newer {w w' : World} (h : w.Later w') {p : CodePoints}
    {newer older : List Version} {u v : Version} (hhistory : w.history p = newer ++ v :: older)
    (hu : u ∈ w.during w' p) : ∃ added, w'.history p = added ++ (newer ++ v :: older) ∧
      u ∈ added ++ newer ++ [v] := by
  obtain ⟨added, hadded⟩ := h.history p
  rw [hhistory] at hadded
  refine ⟨added, hadded.symm, ?_⟩
  rw [World.during, hhistory, ← hadded, List.length_append, Nat.add_sub_cancel_right,
    List.take_length_add_append] at hu
  rw [List.append_assoc]
  rcases List.mem_append.mp hu with hu | hu
  · exact List.mem_append_left _ hu
  · refine List.mem_append_right _ ?_
    cases newer with
    | nil => simpa using hu
    | cons x newer =>
      have hux : u = x := by simpa using hu
      rw [hux]
      exact List.mem_cons_self

/-- **Operator calls follow the files.** In every interleaving of edits and failures with the steps
of a call that is neither public nor a child's: the call is accepted only for a secret, and with a
whitelist for a user, that are entries of a version which their file has during the call; after an
edit never for an entry that only earlier versions have; and not when every read of a required file
fails. -/
theorem authorize_follows_files {s : Server} (hs : s.Reachable P)
    (henabled : s.gate.authMode = .enabled) {method : String}
    (hpublic : privilegeForMethod method s.gate.privilegeTable ≠ .publicAccess)
    (hchild : privilegeForMethod method s.gate.privilegeTable ≠ .child)
    {metadata : Option (List MetadataItem)} {peer : Option CodePoints} {outcome : AuthOutcome}
    {gate : AuthGate} {w : World}
    (hcall : (setting P).Exec (s.gate.authorize P method metadata peer) s.world (outcome, gate) w) :
    (outcome.rejection = none →
      (∃ t, (CallCredentials.fromMetadata P metadata peer).secret = some t ∧
        ∃ p, s.gate.credentialStore.secret.path = some p ∧
          ∃ v ∈ s.world.during w p, t ∈ v.entries P) ∧
      ∃ t, (CallCredentials.fromMetadata P metadata peer).user = some t ∧
        ∀ p, s.gate.credentialStore.whitelist.path = some p →
          ∃ v ∈ s.world.during w p, t ∈ v.entries P) ∧
    (outcome.rejection = none → ∀ p newer v older, s.world.history p = newer ++ v :: older →
      ∃ added, w.history p = added ++ (newer ++ v :: older) ∧
        (s.gate.credentialStore.secret.path = some p →
          ∃ t, (CallCredentials.fromMetadata P metadata peer).secret = some t ∧
            ∃ u ∈ added ++ newer ++ [v], t ∈ u.entries P) ∧
        (s.gate.credentialStore.whitelist.path = some p →
          ∃ t, (CallCredentials.fromMetadata P metadata peer).user = some t ∧
            ∃ u ∈ added ++ newer ++ [v], t ∈ u.entries P)) ∧
    ∀ p, s.gate.credentialStore.secret.path = some p ∨
        s.gate.credentialStore.whitelist.path = some p →
      AllFail (s.world.attempts w p) → outcome.rejection ≠ none := by
  have h := authorize_decision hs.good henabled hpublic hchild _ _ hcall
  refine ⟨fun hnone => ?_, fun hnone p newer v older hhistory => ?_, fun p hp hall hnone => ?_⟩
  · obtain ⟨t, ht, p, hp, hv, -⟩ := h.secret_mem hnone
    obtain ⟨t', ht', hlist⟩ := h.user_mem hnone
    exact ⟨⟨t, ht, p, hp, hv⟩, t', ht', fun q hq => (hlist q hq).1⟩
  · obtain ⟨added, hadded⟩ := h.kept.later.history p
    rw [hhistory] at hadded
    have hnewer : ∀ u ∈ s.world.during w p, u ∈ added ++ newer ++ [v] := fun u hu => by
      obtain ⟨added', hadded', hu⟩ := World.exists_newer h.kept.later hhistory hu
      rwa [List.append_cancel_right (hadded.trans hadded')]
    refine ⟨added, hadded.symm, fun hp => ?_, fun hp => ?_⟩
    · obtain ⟨t, ht, q, hq, ⟨u, hu, hmem⟩, -⟩ := h.secret_mem hnone
      cases hp.symm.trans hq
      exact ⟨t, ht, u, hnewer u hu, hmem⟩
    · obtain ⟨t, ht, hlist⟩ := h.user_mem hnone
      obtain ⟨⟨u, hu, hmem⟩, -⟩ := hlist p hp
      exact ⟨t, ht, u, hnewer u hu, hmem⟩
  · rcases hp with hp | hp
    · obtain ⟨t, -, q, hq, -, hfail⟩ := h.secret_mem hnone
      cases hp.symm.trans hq
      exact hfail hall
    · obtain ⟨t, -, hlist⟩ := h.user_mem hnone
      exact (hlist p hp).2 hall

/-- What an operation gives when nothing fails that need not fail. -/
def answer (P : Platform) (w : World) : (i : FileOp) → i.Answer × World
  | .stat path =>
    match (w.current path).map Version.fingerprint with
    | some f => (.ok f, w.note path .statted)
    | none => (.error (CodePoints.ofString "FileNotFoundError"), w.note path .statFailed)
  | .readText path =>
    match (w.current path).bind fun v => P.decodeFile v.content with
    | some text => (.ok text, w.note path .read)
    | none => (.error (CodePoints.ofString "OSError"), w.note path .readFailed)

theorem act_answer (w : World) (i : FileOp) : act P w i (answer P w i).1 (answer P w i).2 := by
  cases i with
  | stat path =>
    unfold answer
    dsimp only
    split
    case h_1 hf => exact ⟨hf, rfl⟩
    case h_2 => exact rfl
  | readText path =>
    unfold answer
    dsimp only
    split
    case h_1 ht => exact ⟨ht, rfl⟩
    case h_2 => exact rfl

/-- An edit of a file, if there is one and its fingerprint is new. -/
def World.afterEdit (w : World) : Option (CodePoints × Version) → World
  | none => w
  | some (path, v) =>
    if v.fingerprint ∈ (w.history path).map Version.fingerprint then w else w.edit path v

/-- The execution with the given edits, each before one of the calls. -/
def runEdited {α : Type} (P : Platform) :
    List (Option (CodePoints × Version)) → Script α → World → α × World
  | _, .done a, w => (a, w)
  | edits, .call i k, w =>
    let w := w.afterEdit edits.head?.join
    runEdited P edits.tail (k (answer P w i).1) (answer P w i).2

theorem exec_afterEdit {α : Type} {p : Script α} {w w' : World} {a : α}
    (edit : Option (CodePoints × Version)) (h : (setting P).Exec p (w.afterEdit edit) a w') :
    (setting P).Exec p w a w' := by
  unfold World.afterEdit at h
  split at h
  · exact h
  · split_ifs at h with hnew
    · exact h
    · exact .env ⟨_, _, hnew, rfl⟩ h

theorem exec_runEdited {α : Type} : ∀ (edits : List (Option (CodePoints × Version)))
    (p : Script α) (w : World),
    (setting P).Exec p w (runEdited P edits p w).1 (runEdited P edits p w).2
  | _, .done _, _ => .done
  | edits, .call i k, _ => exec_afterEdit edits.head?.join
      (.call (act_answer _ i) (exec_runEdited edits.tail (k _) _))

/-- Files of single bytes, and keys that are lower-case already. -/
def bytePlatform : Platform where
  lower := id
  decodeUtf8 _ := none
  decodeFile b := some (b.map fun x => Fin.ofNat 0x110000 x.toNat)

/-- A secret file and a whitelist file with one entry each. -/
def keyWorld : World where
  history p := if p = CodePoints.ofString "keys" then [⟨(1, 1), [107]⟩]
    else if p = CodePoints.ofString "users" then [⟨(2, 1), [117]⟩] else []
  log _ := []

/-- A gate that has not read the files. -/
def keyGate : AuthGate where
  authMode := .enabled
  credentialStore := .new (some (CodePoints.ofString "keys")) (some (CodePoints.ofString "users"))

/-- The credentials of an operator's call. -/
def keyMetadata (secret : String) : Option (List MetadataItem) :=
  some [.pair (some metadataKeySecret) (.text (CodePoints.ofString secret)),
    .pair (some metadataKeyUser) (.text (CodePoints.ofString "u"))]

/-- The secret file is edited between the `stat` and the read of it. -/
def newKey : List (Option (CodePoints × Version)) :=
  [none, some (CodePoints.ofString "keys", ⟨(1, 2), [110]⟩)]

/-- A requeue that is called with a secret while the file is edited. -/
def editedCall (secret : String) : (AuthOutcome × AuthGate) × World :=
  runEdited bytePlatform newKey (keyGate.authorize bytePlatform
    "/takler_protocol.TaklerServer/RunCommandRequeue" (keyMetadata secret) none) keyWorld

/-- **An edit between the two looks at a file.** A call with the new secret is accepted, and one with
the old secret is not, though the fingerprint that was taken is that of the old file. -/
theorem key_call_accepted :
    (editedCall "n").1.1.rejection = none ∧
    (editedCall "k").1.1.rejection = some .invalidCredential ∧
    ∃ t, (CallCredentials.fromMetadata bytePlatform (keyMetadata "n") none).secret = some t ∧
      ∃ p, keyGate.credentialStore.secret.path = some p ∧
        ∃ v ∈ keyWorld.during (editedCall "n").2 p, t ∈ v.entries bytePlatform := by
  have haccepted : (editedCall "n").1.1.rejection = none := by decide +kernel
  refine ⟨haccepted, by decide +kernel, ?_⟩
  exact ((authorize_follows_files (s := ⟨keyGate, keyWorld⟩) ⟨_, _, _, _, _, .refl⟩ rfl
    (by decide +kernel) (by decide +kernel) (exec_runEdited newKey _ _)).1 haccepted).1

end Takler.Auth
