import Mathlib

/-!
# Loops that may fail

Rules for loops over lists in `Except`: when such a loop succeeds, every round has succeeded.

## Main results

* `Except.forall₂_of_mapM`: what a successful `mapM` has collected.
* `Except.forM_eq_ok`: a loop without a result.
-/

namespace Except

universe u

variable {ε : Type*} {α β : Type u}

theorem bind_eq_ok {x : Except ε α} {f : α → Except ε β} {b : β} :
    (x >>= f) = .ok b ↔ ∃ a, x = .ok a ∧ f a = .ok b := by
  cases x with
  | error e => exact ⟨fun h => (nomatch h), fun ⟨_, h, _⟩ => (nomatch h)⟩
  | ok a => exact ⟨fun h => ⟨a, rfl, h⟩, fun ⟨_, h, hf⟩ => Except.ok.inj h ▸ hf⟩

theorem toOption_eq_some {x : Except ε α} {a : α} : x.toOption = some a ↔ x = .ok a := by
  cases x with
  | error e => exact ⟨fun h => (nomatch h), fun h => (nomatch h)⟩
  | ok b => exact ⟨fun h => congrArg _ (Option.some.inj h), fun h => congrArg _ (Except.ok.inj h)⟩

theorem mapError_eq_ok {ε' : Type*} {g : ε → ε'} {x : Except ε α} {a : α} :
    x.mapError g = .ok a ↔ x = .ok a := by
  cases x with
  | error e => exact ⟨fun h => (nomatch h), fun h => (nomatch h)⟩
  | ok b => exact ⟨fun h => congrArg _ (Except.ok.inj h), fun h => congrArg _ (Except.ok.inj h)⟩

/-- What a `mapM` collects, round by round. -/
theorem forall₂_of_mapM {f : α → Except ε β} : ∀ {l : List α} {bs : List β},
    l.mapM f = .ok bs → List.Forall₂ (fun a b => f a = .ok b) l bs
  | [], _, h => by
    cases h
    exact .nil
  | a :: l, _, h => by
    rw [List.mapM_cons] at h
    obtain ⟨b, hb, h⟩ := bind_eq_ok.mp h
    obtain ⟨bs, hbs, h⟩ := bind_eq_ok.mp h
    cases h
    exact .cons hb (forall₂_of_mapM hbs)

/-- What the `mapM` of an optional value collects. -/
theorem option_mapM_eq_ok {f : α → Except ε β} : ∀ {o : Option α} {o' : Option β},
    o.mapM f = .ok o' → Option.Rel (fun a b => f a = .ok b) o o'
  | none, _, h => by
    cases h
    exact .none
  | some a, _, h => by
    obtain ⟨b, hb, h⟩ := bind_eq_ok.mp h
    cases h
    exact .some hb

/-- A loop without a result succeeds only when all rounds do. -/
theorem forM_eq_ok {f : α → Except ε PUnit} : ∀ {l : List α},
    l.forM f = .ok ⟨⟩ → ∀ a ∈ l, f a = .ok ⟨⟩
  | [], _, _, ha => (List.not_mem_nil ha).elim
  | b :: l, h, a, ha => by
    rw [List.forM] at h
    obtain ⟨_, hb, h⟩ := bind_eq_ok.mp h
    rcases List.mem_cons.mp ha with rfl | ha
    · exact hb
    · exact forM_eq_ok h a ha

end Except

theorem Option.Rel.exists_of_mem_right {α β : Type*} {R : α → β → Prop} {o : Option α}
    {o' : Option β} (h : Option.Rel R o o') {b : β} (hb : b ∈ o') : ∃ a ∈ o, R a b := by
  cases h with
  | none => cases hb
  | some hab =>
    cases hb
    exact ⟨_, rfl, hab⟩

namespace List

variable {α β : Type*}

/-- Every entry on the right has a partner. -/
theorem Forall₂.exists_of_mem_right {R : α → β → Prop} {l : List α} {l' : List β}
    (h : Forall₂ R l l') {b : β} (hb : b ∈ l') : ∃ a ∈ l, R a b := by
  induction h with
  | nil => cases hb
  | @cons a c _ _ hac _ ih =>
    rcases List.mem_cons.mp hb with rfl | hb
    · exact ⟨a, List.mem_cons_self, hac⟩
    · obtain ⟨d, hd, hdb⟩ := ih hb
      exact ⟨d, List.mem_cons_of_mem a hd, hdb⟩

/-- Every entry on the left has a partner. -/
theorem Forall₂.exists_of_mem_left {R : α → β → Prop} {l : List α} {l' : List β}
    (h : Forall₂ R l l') {a : α} (ha : a ∈ l) : ∃ b ∈ l', R a b :=
  (Forall₂.flip (R := fun b a => R a b) h).exists_of_mem_right ha

/-- Two partners of the entries of a list, of which the first decides the second. -/
theorem forall₂_eq_map {γ : Type*} {f : β → γ} {R : α → β → Prop} {S : α → γ → Prop}
    (himp : ∀ a b c, R a b → S a c → c = f b) : ∀ {as : List α} {bs : List β} {cs : List γ},
    Forall₂ R as bs → Forall₂ S as cs → cs = bs.map f
  | _, _, _, .nil, .nil => rfl
  | _, _, _, .cons hab hR, .cons hac hS => by
    rw [map_cons, himp _ _ _ hab hac, forall₂_eq_map himp hR hS]

theorem find?_congr_of_mem {p q : α → Bool} : ∀ {l : List α},
    (∀ a ∈ l, p a = q a) → l.find? p = l.find? q
  | [], _ => rfl
  | a :: l, h => by
    rw [find?_cons, find?_cons, h a mem_cons_self,
      find?_congr_of_mem fun b hb => h b (mem_cons_of_mem a hb)]

end List
