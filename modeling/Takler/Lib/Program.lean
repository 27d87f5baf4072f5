import Mathlib

/-!
# Programs with a state and exceptions, and their triples

A program reads and writes a state and may raise. What was written before a raise stays written,
as in a language with mutable objects: the state is inside, the exception outside
(`ExceptT ε (StateM σ)`).

`Triple P m Q E` says: started in a state with `P`, the program either returns `a` in a state with
`Q a`, or raises `e` in a state with `E e`. Programs here always end, so this is total
correctness. `Keeps I m` is the triple of an invariant that holds on every way out.

## Main definitions

* `Program`, `Program.exec`, `Program.when`, `Program.Triple`, `Program.Keeps`.
* `Program.Within`: every run relates the state before to the state after.
* `Program.Raises`: the exceptions a program can end with.
* `Program.Refuses`: the program raises and has changed nothing.
* `Program.Effect`: a program that always returns, with the relation it establishes.

## Main results

* `Program.exec_bind`, `Program.exec_tryCatch`: how runs compose.
* `Program.Triple.bind`, `Program.Triple.ite`, `Program.Triple.conseq`: the rules of the logic.
* `Program.Triple.forM`, `Program.Keeps.forM`: the loop rules.
* `Program.Within.keeps`: an invariant follows from a frame.
-/

/-- Programs over a state `σ` that return an `α` or raise an `ε`. -/
abbrev Program (σ ε : Type) := ExceptT ε (StateM σ)

namespace Program

variable {σ ε α β : Type}

/-- Run a program: its outcome and the state it leaves. -/
def exec (m : Program σ ε α) (s : σ) : Except ε α × σ := m.run.run s

@[simp] theorem exec_pure (a : α) (s : σ) : exec (pure a : Program σ ε α) s = (.ok a, s) := rfl

@[simp] theorem exec_get (s : σ) : exec (get : Program σ ε σ) s = (.ok s, s) := rfl

@[simp] theorem exec_modify (f : σ → σ) (s : σ) :
    exec (modify f : Program σ ε PUnit) s = (.ok ⟨⟩, f s) := rfl

/-- Run a program on a condition. -/
def when (c : Prop) [Decidable c] (m : Program σ ε Unit) : Program σ ε Unit :=
  if c then m else pure ()

/-- A sequence runs its second part only when the first one returns. -/
theorem exec_bind (m : Program σ ε α) (f : α → Program σ ε β) (s : σ) :
    exec (m >>= f) s =
      match exec m s with
      | (.ok a, t) => exec (f a) t
      | (.error e, t) => (.error e, t) := by
  have h : exec (m >>= f) s =
      (ExceptT.bindCont f (exec m s).1 : StateM σ (Except ε β)).run (exec m s).2 := rfl
  rw [h]
  rcases exec m s with ⟨_ | _, t⟩ <;> rfl

theorem exec_bind_of_ok {m : Program σ ε α} {s t : σ} {a : α} (h : exec m s = (.ok a, t))
    (f : α → Program σ ε β) : exec (m >>= f) s = exec (f a) t := by
  rw [exec_bind, h]

theorem exec_bind_congr {m : Program σ ε α} {f g : α → Program σ ε β} {s : σ}
    (h : ∀ a t, exec m s = (.ok a, t) → exec (f a) t = exec (g a) t) :
    exec (m >>= f) s = exec (m >>= g) s := by
  rw [exec_bind, exec_bind]
  rcases hm : exec m s with ⟨e | a, t⟩
  · rfl
  · exact h a t hm

/-- A handler runs in the state in which the exception was raised. -/
theorem exec_tryCatch (m : Program σ ε α) (h : ε → Program σ ε α) (s : σ) :
    exec (tryCatch m h) s =
      match exec m s with
      | (.ok a, t) => (.ok a, t)
      | (.error e, t) => exec (h e) t := by
  have hm : exec (tryCatch m h) s = (match (exec m s).1 with
      | .ok a => (pure (.ok a) : StateM σ (Except ε α))
      | .error e => (h e).run).run (exec m s).2 := rfl
  rw [hm]
  rcases exec m s with ⟨_ | _, t⟩ <;> rfl

/-! ### Triples -/

/-- From `P` the program returns with `Q` or raises with `E`. -/
def Triple (P : σ → Prop) (m : Program σ ε α) (Q : α → σ → Prop) (E : ε → σ → Prop) : Prop :=
  ∀ s, P s →
    match exec m s with
    | (.ok a, t) => Q a t
    | (.error e, t) => E e t

/-- The program keeps `I` whether it returns or raises. -/
def Keeps (I : σ → Prop) (m : Program σ ε α) : Prop := Triple I m (fun _ => I) (fun _ => I)

namespace Triple

variable {P P' : σ → Prop} {Q Q' : α → σ → Prop} {E E' : ε → σ → Prop} {R : β → σ → Prop}
  {m : Program σ ε α}

theorem pure {a : α} (h : ∀ s, P s → Q a s) : Triple P (pure a) Q E := fun s hs => h s hs

theorem throw {e : ε} (h : ∀ s, P s → E e s) : Triple P (throw e) Q E := fun s hs => h s hs

theorem get {Q : σ → σ → Prop} (h : ∀ s, P s → Q s s) : Triple P get Q E := fun s hs => h s hs

theorem modify {Q : PUnit → σ → Prop} {f : σ → σ} (h : ∀ s, P s → Q ⟨⟩ (f s)) :
    Triple P (modify f) Q E := fun s hs => h s hs

theorem bind {f : α → Program σ ε β} (hm : Triple P m Q E) (hf : ∀ a, Triple (Q a) (f a) R E) :
    Triple P (m >>= f) R E := by
  intro s hs
  have h := hm s hs
  rw [exec_bind]
  rcases hx : exec m s with ⟨e | a, t⟩
  · rw [hx] at h
    exact h
  · rw [hx] at h
    exact hf a t h

/-- Reading the state: the rest is looked at for the state that was read. -/
theorem get_bind {f : σ → Program σ ε β} (h : ∀ s, P s → Triple (· = s) (f s) R E) :
    Triple P (MonadState.get >>= f) R E := by
  intro s hs
  exact h s hs s rfl

theorem conseq (h : Triple P m Q E) (hP : ∀ s, P' s → P s) (hQ : ∀ a s, Q a s → Q' a s)
    (hE : ∀ e s, E e s → E' e s) : Triple P' m Q' E' := by
  intro s hs
  have h := h s (hP s hs)
  rcases hx : exec m s with ⟨e | a, t⟩
  · rw [hx] at h
    exact hE e t h
  · rw [hx] at h
    exact hQ a t h

theorem pre (h : Triple P m Q E) (hP : ∀ s, P' s → P s) : Triple P' m Q E :=
  h.conseq hP (fun _ _ h => h) (fun _ _ h => h)

theorem post (h : Triple P m Q E) (hQ : ∀ a s, Q a s → Q' a s) : Triple P m Q' E :=
  h.conseq (fun _ h => h) hQ (fun _ _ h => h)

theorem ite {c : Prop} [Decidable c] {m₁ m₂ : Program σ ε α} (h₁ : c → Triple P m₁ Q E)
    (h₂ : ¬ c → Triple P m₂ Q E) : Triple P (if c then m₁ else m₂) Q E := by
  split_ifs with hc
  · exact h₁ hc
  · exact h₂ hc

theorem when {c : Prop} [Decidable c] {m : Program σ ε Unit} {Q : Unit → σ → Prop}
    (h₁ : c → Triple P m Q E) (h₂ : ¬ c → ∀ s, P s → Q () s) : Triple P (when c m) Q E :=
  ite h₁ fun hc => Triple.pure (h₂ hc)

/-- Two triples of one program hold together. -/
theorem and {P₂ : σ → Prop} {Q₂ : α → σ → Prop} {E₂ : ε → σ → Prop} (h₁ : Triple P m Q E)
    (h₂ : Triple P₂ m Q₂ E₂) :
    Triple (fun s => P s ∧ P₂ s) m (fun a s => Q a s ∧ Q₂ a s) (fun e s => E e s ∧ E₂ e s) := by
  intro s hs
  have h₁ := h₁ s hs.1
  have h₂ := h₂ s hs.2
  rcases hx : exec m s with ⟨e | a, t⟩ <;> rw [hx] at h₁ h₂ <;> exact ⟨h₁, h₂⟩

/-- A triple for each initial state gives one triple. -/
theorem of_forall (h : ∀ s, P s → Triple (· = s) m Q E) : Triple P m Q E :=
  fun s hs => h s hs s rfl

theorem tryCatch {h : ε → Program σ ε α} (hm : Triple P m Q E)
    (hh : ∀ e, Triple (E e) (h e) Q E') : Triple P (tryCatch m h) Q E' := by
  intro s hs
  have hr := hm s hs
  rw [exec_tryCatch]
  rcases hx : exec m s with ⟨e | a, t⟩
  · rw [hx] at hr
    exact hh e t hr
  · rw [hx] at hr
    exact hr

/-- The loop rule: the assertion speaks of the elements that are left. -/
theorem forM {P : List β → σ → Prop} {f : β → Program σ ε PUnit}
    (h : ∀ x l, Triple (P (x :: l)) (f x) (fun _ => P l) E) :
    ∀ l : List β, Triple (P l) (l.forM f) (fun _ => P []) E
  | [] => Triple.pure fun _ hs => hs
  | x :: l => (h x l).bind fun _ => forM h l

/-- What holds on every way out holds in the state that is left. -/
theorem exec {I : σ → Prop} (h : Triple P m (fun _ => I) (fun _ => I)) {s : σ} (hs : P s) :
    I (m.exec s).2 := by
  have := h s hs
  rcases hx : Program.exec m s with ⟨e | a, t⟩ <;> rw [hx] at this <;> exact this

end Triple

/-! ### Invariants -/

namespace Keeps

variable {I : σ → Prop} {m : Program σ ε α}

theorem pure (a : α) : Keeps I (pure a : Program σ ε α) := Triple.pure fun _ h => h

theorem throw (e : ε) : Keeps I (throw e : Program σ ε α) := Triple.throw fun _ h => h

theorem get : Keeps I (get : Program σ ε σ) := Triple.get fun _ h => h

theorem modify {f : σ → σ} (h : ∀ s, I s → I (f s)) : Keeps I (modify f : Program σ ε PUnit) :=
  Triple.modify h

theorem bind {f : α → Program σ ε β} (hm : Keeps I m) (hf : ∀ a, Keeps I (f a)) :
    Keeps I (m >>= f) := Triple.bind hm hf

theorem ite {c : Prop} [Decidable c] {m₁ m₂ : Program σ ε α} (h₁ : c → Keeps I m₁)
    (h₂ : ¬ c → Keeps I m₂) : Keeps I (if c then m₁ else m₂) := Triple.ite h₁ h₂

theorem when {c : Prop} [Decidable c] {m : Program σ ε Unit} (h : c → Keeps I m) :
    Keeps I (when c m) := ite h fun _ => Keeps.pure _

theorem forM {l : List β} {f : β → Program σ ε PUnit} (h : ∀ x ∈ l, Keeps I (f x)) :
    Keeps I (l.forM f) := by
  induction l with
  | nil => exact Keeps.pure _
  | cons x l ih =>
    exact (h x List.mem_cons_self).bind fun _ => ih fun y hy => h y (List.mem_cons_of_mem x hy)

/-- The state after a run, returned or raised, satisfies a kept invariant. -/
theorem exec (h : Keeps I m) {s : σ} (hs : I s) : I (m.exec s).2 := Triple.exec h hs

/-- More may be known before. -/
theorem given {I P : σ → Prop} {m : Program σ ε α} (h : Keeps I m) :
    Triple (fun s => I s ∧ P s) m (fun _ => I) (fun _ => I) :=
  Triple.pre h fun _ hs => hs.1

end Keeps

/-! ### Frames -/

/-- Every run of the program relates the state before to the state after. -/
def Within (R : σ → σ → Prop) (m : Program σ ε α) : Prop := ∀ s, R s (m.exec s).2

namespace Within

variable {R : σ → σ → Prop} {m : Program σ ε α}

theorem pure [Std.Refl R] (a : α) : Within R (pure a : Program σ ε α) := fun s => refl_of R s

theorem throw [Std.Refl R] (e : ε) : Within R (throw e : Program σ ε α) := fun s => refl_of R s

theorem get [Std.Refl R] : Within R (get : Program σ ε σ) := fun s => refl_of R s

theorem modify {f : σ → σ} (h : ∀ s, R s (f s)) : Within R (modify f : Program σ ε PUnit) := h

theorem bind [IsTrans σ R] {f : α → Program σ ε β} (hm : Within R m)
    (hf : ∀ a, Within R (f a)) : Within R (m >>= f) := by
  intro s
  have h := hm s
  rw [exec_bind]
  rcases hx : exec m s with ⟨e | a, t⟩
  · rw [hx] at h
    exact h
  · rw [hx] at h
    exact trans_of R h (hf a t)

theorem ite {c : Prop} [Decidable c] {m₁ m₂ : Program σ ε α} (h₁ : Within R m₁)
    (h₂ : Within R m₂) : Within R (if c then m₁ else m₂) := by
  split_ifs
  · exact h₁
  · exact h₂

theorem when [Std.Refl R] {c : Prop} [Decidable c] {m : Program σ ε Unit} (h : Within R m) :
    Within R (when c m) := ite h (Within.pure _)

theorem forM [Std.Refl R] [IsTrans σ R] {l : List β} {f : β → Program σ ε PUnit}
    (h : ∀ x ∈ l, Within R (f x)) : Within R (l.forM f) := by
  induction l with
  | nil => exact Within.pure _
  | cons x l ih =>
    exact (h x List.mem_cons_self).bind fun _ => ih fun y hy => h y (List.mem_cons_of_mem x hy)

theorem tryCatch [IsTrans σ R] {h : ε → Program σ ε α} (hm : Within R m)
    (hh : ∀ e, Within R (h e)) : Within R (tryCatch m h) := by
  intro s
  have hs := hm s
  rw [exec_tryCatch]
  rcases hx : exec m s with ⟨e | a, t⟩
  · rw [hx] at hs
    exact trans_of R hs (hh e t)
  · rw [hx] at hs
    exact hs

theorem triple (h : Within R m) (s : σ) : Triple (· = s) m (fun _ => R s) (fun _ => R s) := by
  rintro u rfl
  have := h u
  rcases hx : exec m u with ⟨e | a, t⟩ <;> rw [hx] at this <;> exact this

/-- A property that the relation carries over is kept. -/
theorem keeps {I : σ → Prop} (h : Within R m) (hI : ∀ s t, R s t → I s → I t) : Keeps I m := by
  intro s hs
  have := hI s _ (h s) hs
  rcases hx : exec m s with ⟨e | a, t⟩ <;> rw [hx] at this <;> exact this

/-- What only reads keeps everything. -/
theorem always {I : σ → Prop} (h : Within Eq m) : Keeps I m :=
  h.keeps fun _ _ heq hs => heq ▸ hs

/-- A frame applies from any earlier state on. -/
theorem since [IsTrans σ R] (h : Within R m) (s : σ) : Keeps (R s) m :=
  h.keeps fun _ _ ht hs => trans_of R hs ht

theorem andThen [IsTrans σ R] {s : σ} {f : α → Program σ ε β} (hm : Within R m)
    (hf : ∀ a, Keeps (R s) (f a)) : Keeps (R s) (m >>= f) :=
  (hm.since s).bind hf

end Within

/-! ### What a program can raise -/

/-- The program raises nothing but exceptions with `E`. -/
def Raises (E : ε → Prop) (m : Program σ ε α) : Prop :=
  Triple (fun _ => True) m (fun _ _ => True) (fun e _ => E e)

namespace Raises

variable {E : ε → Prop} {m : Program σ ε α}

theorem pure (a : α) : Raises E (pure a : Program σ ε α) := Triple.pure fun _ h => h

theorem throw {e : ε} (h : E e) : Raises E (throw e : Program σ ε α) := Triple.throw fun _ _ => h

theorem get : Raises E (get : Program σ ε σ) := Triple.get fun _ h => h

theorem modify (f : σ → σ) : Raises E (modify f : Program σ ε PUnit) := Triple.modify fun _ h => h

theorem bind {f : α → Program σ ε β} (hm : Raises E m) (hf : ∀ a, Raises E (f a)) :
    Raises E (m >>= f) := Triple.bind hm hf

theorem ite {c : Prop} [Decidable c] {m₁ m₂ : Program σ ε α} (h₁ : Raises E m₁)
    (h₂ : Raises E m₂) : Raises E (if c then m₁ else m₂) := Triple.ite (fun _ => h₁) fun _ => h₂

theorem when {c : Prop} [Decidable c] {m : Program σ ε Unit} (h : Raises E m) :
    Raises E (when c m) := ite h (Raises.pure _)

theorem tryCatch {h : ε → Program σ ε α} (hm : Raises E m) (hh : ∀ e, E e → Raises E (h e)) :
    Raises E (tryCatch m h) := by
  refine Triple.tryCatch (E := fun e _ => E e) hm fun e s hs => ?_
  exact hh e hs s trivial

theorem forM {l : List β} {f : β → Program σ ε PUnit} (h : ∀ x, Raises E (f x)) :
    Raises E (l.forM f) := by
  induction l with
  | nil => exact Raises.pure _
  | cons x l ih => exact (h x).bind fun _ => ih

/-- What a run raises has `E`. -/
theorem error (h : Raises E m) {s : σ} {e : ε} (he : (m.exec s).1 = .error e) : E e := by
  have hs := h s trivial
  rcases hm : m.exec s with ⟨_ | _, t⟩
  · rw [hm] at hs he
    cases he
    exact hs
  · rw [hm] at he
    cases he

end Raises

/-! ### Refusals -/

/-- Started in this state, the program raises and leaves the state as it was. -/
def Refuses (m : Program σ ε α) (s : σ) : Prop := ∃ e, m.exec s = (.error e, s)

namespace Refuses

variable {m : Program σ ε α} {s : σ}

theorem throw (e : ε) (s : σ) : Refuses (throw e : Program σ ε α) s := ⟨e, rfl⟩

/-- What only reads may come first: it refuses by itself, or the rest does. -/
theorem bind {f : α → Program σ ε β} (hm : Within Eq m)
    (hf : ∀ a, m.exec s = (.ok a, s) → Refuses (f a) s) : Refuses (m >>= f) s := by
  have hs : s = (m.exec s).2 := hm s
  unfold Refuses
  rw [exec_bind]
  rcases hx : m.exec s with ⟨e | a, t⟩
  · rw [hx] at hs
    exact ⟨e, hs ▸ rfl⟩
  · rw [hx] at hs
    obtain rfl : s = t := hs
    exact hf a hx

/-- A program that only reads refuses or returns. -/
theorem or_ok (hm : Within Eq m) (s : σ) : Refuses m s ∨ ∃ a, m.exec s = (.ok a, s) := by
  have hs : s = (m.exec s).2 := hm s
  rcases hx : m.exec s with ⟨e | a, t⟩
  · rw [hx] at hs
    exact .inl ⟨e, by rw [hx, hs]⟩
  · rw [hx] at hs
    exact .inr ⟨a, by rw [hs]⟩

/-- Whatever comes after a refusal does not happen. -/
theorem left (h : Refuses m s) (f : α → Program σ ε β) : Refuses (m >>= f) s := by
  obtain ⟨e, he⟩ := h
  exact ⟨e, by rw [exec_bind, he]⟩

theorem get_bind {f : σ → Program σ ε β} (h : Refuses (f s) s) :
    Refuses (MonadState.get >>= f) s := h

end Refuses

/-! ### Programs that always return -/

/-- The program never raises, and every run relates the state before to the state after. -/
def Effect (R : σ → σ → Prop) (m : Program σ ε Unit) : Prop :=
  ∀ s, ∃ t, m.exec s = (.ok (), t) ∧ R s t

namespace Effect

variable {R S : σ → σ → Prop} {m m' : Program σ ε Unit}

theorem pure [Std.Refl R] : Effect R (pure () : Program σ ε Unit) :=
  fun s => ⟨s, rfl, refl_of R s⟩

theorem modify {f : σ → σ} (h : ∀ s, R s (f s)) : Effect R (modify f : Program σ ε Unit) :=
  fun s => ⟨f s, rfl, h s⟩

theorem mono (h : Effect R m) (hR : ∀ s t, R s t → S s t) : Effect S m := by
  intro s
  obtain ⟨t, ht, hst⟩ := h s
  exact ⟨t, ht, hR s t hst⟩

/-- The effects of a sequence compose. -/
theorem seq (h : Effect R m) (h' : Effect S m') :
    Effect (fun s u => ∃ t, R s t ∧ S t u) (m >>= fun _ => m') := by
  intro s
  obtain ⟨t, ht, hst⟩ := h s
  obtain ⟨u, hu, htu⟩ := h' t
  exact ⟨u, by simp [exec_bind, ht, hu], t, hst, htu⟩

theorem trans [IsTrans σ R] (h : Effect R m) (h' : Effect R m') :
    Effect R (m >>= fun _ => m') :=
  (h.seq h').mono fun _ _ ⟨_, hst, htu⟩ => trans_of R hst htu

theorem when [Std.Refl R] {c : Prop} [Decidable c] (h : Effect R m) : Effect R (when c m) := by
  unfold Program.when
  split_ifs
  · exact h
  · exact pure

/-- The loop rule for effects: one more element comes in front. -/
theorem forM {f : β → Program σ ε PUnit} {S : β → σ → σ → Prop} {R : List β → σ → σ → Prop}
    (h : ∀ x, Effect (S x) (f x)) (hnil : ∀ s, R [] s s)
    (hcons : ∀ x l s t u, S x s t → R l t u → R (x :: l) s u) :
    ∀ l : List β, Effect (R l) (l.forM f)
  | [] => fun s => ⟨s, rfl, hnil s⟩
  | x :: l => ((h x).seq (forM h hnil hcons l)).mono fun s u ⟨t, hst, htu⟩ => hcons x l s t u hst htu

theorem raises (h : Effect R m) {E : ε → Prop} : Raises E m := by
  intro s _
  obtain ⟨t, ht, -⟩ := h s
  rw [ht]
  trivial

theorem within (h : Effect R m) : Within R m := by
  intro s
  obtain ⟨t, ht, hst⟩ := h s
  rwa [ht]

theorem triple {P Q : σ → Prop} {E : ε → σ → Prop} (h : Effect R m)
    (hQ : ∀ s t, R s t → P s → Q t) : Triple P m (fun _ => Q) E := by
  intro s hs
  obtain ⟨t, ht, hst⟩ := h s
  rw [ht]
  exact hQ s t hst hs

end Effect

end Program
