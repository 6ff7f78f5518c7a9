/-
MultiHop/Proofs/Consult.lean

How a computation ends.  `x.Ends P E` says that `x` ends with an answer that satisfies
`P` or with an error that satisfies `E`.  With an `E` that nothing satisfies it says
that there is an answer; with one that only errors of the domain satisfy it says that
the computation never breaks off.  There is one rule for each way of building a
computation, so that a function is taken apart once, in its own lemma, and its callers
use that lemma.

`x.Costs g n` says how much `x` asks for, as the gauge `g` counts it: exactly `n` if there
is an answer, and at most `n` in any case.  It has the same rules.

`x.Blames E C` traces an error of `x` to its cause: the error satisfies `E`, or the last call
that the model received is to blame for it, as `C` says.

`x.Relates y S` compares two computations: the answers, when both have one, stand in the
relation `S`.  Its rules follow the two computations side by side.
-/
import Mathlib.Data.List.Forall2
import MultiHop.Consult
import MultiHop.Fault

namespace MultiHop

/-- A way to count usage by which the counts of consecutive parts add up. -/
structure Gauge where
  read : Usage → Nat
  read_nothing : read .nothing = 0
  read_append (a b : Usage) : read (a ++ b) = read a + read b

/-- Counts the predictions that are issued. -/
def Gauge.predictions : Gauge := ⟨Usage.predictions, rfl, fun _ _ => rfl⟩

/-- Counts the calls that satisfy `P`. -/
def Gauge.calls (P : Call → Bool) : Gauge :=
  ⟨fun u => u.calls.countP P, rfl, fun _ _ => List.countP_append⟩

/-- A sequence of results is a result when both of its parts are. -/
theorem except_bind_eq_ok_iff {ε α β : Type} {x : Except ε α} {f : α → Except ε β} {b : β} :
    (x >>= f) = .ok b ↔ ∃ a, x = .ok a ∧ f a = .ok b := by
  cases x with
  | error e => exact ⟨nofun, fun ⟨_, h, _⟩ => nomatch h⟩
  | ok a => exact ⟨fun h => ⟨a, rfl, h⟩, fun ⟨_, ha, h⟩ => by cases ha; exact h⟩

theorem except_map_eq_ok_iff {ε α β : Type} {x : Except ε α} {f : α → β} {b : β} :
    x.map f = .ok b ↔ ∃ a, x = .ok a ∧ f a = b := by
  cases x with
  | error e => exact ⟨nofun, fun ⟨_, h, _⟩ => nomatch h⟩
  | ok a => exact ⟨fun h => ⟨a, rfl, Except.ok.inj h⟩, fun ⟨_, ha, h⟩ => by cases ha; rw [← h]; rfl⟩

namespace Consult

variable {ε δ α β : Type}

/-- `x` ends with an answer that satisfies `P`, or with an error that satisfies `E`. -/
def Ends (x : Consult ε α) (P : α → Prop) (E : ε → Prop) : Prop :=
  match x.result with
  | .ok a => P a
  | .error e => E e

variable {P Q : α → Prop} {R : β → Prop} {E F : ε → Prop} {x : Consult ε α}

/-! ### Reading it off -/

theorem Ends.of_ok {a : α} (h : x.result = .ok a) (hx : x.Ends P E) : P a := by
  unfold Ends at hx; rwa [h] at hx

theorem Ends.of_error {e : ε} (h : x.result = .error e) (hx : x.Ends P E) : E e := by
  unfold Ends at hx; rwa [h] at hx

/-- A computation that cannot fail has an answer. -/
theorem Ends.exists_ok (hx : x.Ends P fun _ => False) : ∃ a, x.result = .ok a ∧ P a := by
  cases h : x.result with
  | ok a => exact ⟨a, rfl, hx.of_ok h⟩
  | error e => exact (hx.of_error h).elim

/-- The only answer that is possible. -/
theorem Ends.result_eq {a : α} (hx : x.Ends (· = a) fun _ => False) : x.result = .ok a := by
  obtain ⟨b, hb, rfl⟩ := hx.exists_ok
  exact hb

theorem ends_of_result (hok : ∀ a, x.result = .ok a → P a)
    (herror : ∀ e, x.result = .error e → E e) : x.Ends P E := by
  unfold Ends
  cases h : x.result with
  | ok a => exact hok a h
  | error e => exact herror e h

theorem Ends.mono (hx : x.Ends P E) (hP : ∀ a, P a → Q a) (hE : ∀ e, E e → F e) :
    x.Ends Q F :=
  ends_of_result (fun a h => hP a (hx.of_ok h)) (fun e h => hE e (hx.of_error h))

theorem Ends.mono_error (hx : x.Ends P E) (hE : ∀ e, E e → F e) : x.Ends P F :=
  hx.mono (fun _ h => h) hE

/-- Two facts about one computation. -/
theorem Ends.and (hx : x.Ends P E) (hx' : x.Ends Q F) :
    x.Ends (fun a => P a ∧ Q a) fun e => E e ∧ F e :=
  ends_of_result (fun _ h => ⟨hx.of_ok h, hx'.of_ok h⟩) fun _ h => ⟨hx.of_error h, hx'.of_error h⟩

theorem ends_trivial : x.Ends (fun _ => True) fun _ => True :=
  ends_of_result (fun _ _ => trivial) fun _ _ => trivial

/-! ### One rule for each construct -/

theorem ends_pure {a : α} (h : P a) : (Pure.pure a : Consult ε α).Ends P E := h

theorem ends_fail {e : ε} (h : E e) : (fail e : Consult ε α).Ends P E := h

theorem ends_ofExcept {r : Except ε α} (hok : ∀ a, r = .ok a → P a)
    (herror : ∀ e, r = .error e → E e) : (ofExcept r).Ends P E :=
  ends_of_result hok herror

/-- The second computation starts from what the first one ends with. -/
theorem Ends.bind {f : α → Consult ε β} (hx : x.Ends P E) (hf : ∀ a, P a → (f a).Ends R E) :
    (x >>= f).Ends R E := by
  cases h : x.result with
  | ok a =>
    have ha := hf a (hx.of_ok h)
    rw [bind_of_ok h]
    exact ha
  | error e =>
    have he := hx.of_error h
    rw [bind_of_error h]
    exact he

/-- A first computation whose answer is known. -/
theorem ends_bind_of_ok {f : α → Consult ε β} {a : α} (h : x.result = .ok a)
    (hf : (f a).Ends R E) : (x >>= f).Ends R E := by
  rw [bind_of_ok h]
  exact hf

theorem Ends.mapError {f : ε → δ} {E : δ → Prop} (hx : x.Ends P fun e => E (f e)) :
    (x.mapError f).Ends P E := by
  obtain ⟨usage, result⟩ := x
  cases result with
  | ok a => exact hx
  | error e => exact hx

/-- A computation for each member of a list: the answers stand in the relation `S` to
the members. -/
theorem ends_mapM {γ : Type} {S : γ → α → Prop} {f : γ → Consult ε α} {xs : List γ}
    (h : ∀ c ∈ xs, (f c).Ends (S c) E) : (xs.mapM f).Ends (List.Forall₂ S xs) E := by
  induction xs with
  | nil => exact ends_pure .nil
  | cons c xs ih =>
    obtain ⟨hc, hxs⟩ := List.forall_mem_cons.1 h
    rw [List.mapM_cons]
    exact hc.bind fun a ha => (ih hxs).bind fun as has => ends_pure (.cons ha has)

/-- Answers for the members of a list stand at the positions of the members. -/
theorem exists_ok_mapM {γ : Type} {S : γ → α → Prop} {f : γ → Consult ε α} {xs : List γ}
    (h : ∀ c ∈ xs, (f c).Ends (S c) fun _ => False) :
    ∃ ys, (xs.mapM f).result = .ok ys ∧ ys.length = xs.length ∧
      ∀ (i : Nat) (c : γ), xs[i]? = some c → ∃ y, ys[i]? = some y ∧ S c y := by
  obtain ⟨ys, hys, hall⟩ := (ends_mapM h).exists_ok
  obtain ⟨hlen, hget⟩ := List.forall₂_iff_get.1 hall
  refine ⟨ys, hys, hlen.symm, fun i c hi => ?_⟩
  obtain ⟨hlt, rfl⟩ := List.getElem?_eq_some_iff.1 hi
  exact ⟨ys[i], List.getElem?_eq_getElem (hlen ▸ hlt), hget i hlt (hlen ▸ hlt)⟩

/-- Without any use of the model, members are replaced one by one. -/
theorem mapM_eq_pure {γ : Type} {f : γ → Consult ε α} {g : γ → α} {xs : List γ}
    (hf : ∀ c ∈ xs, f c = Pure.pure (g c)) : xs.mapM f = Pure.pure (xs.map g) := by
  induction xs with
  | nil => rfl
  | cons c xs ih =>
    obtain ⟨hc, hxs⟩ := List.forall_mem_cons.1 hf
    rw [List.mapM_cons, hc, pure_bind, ih hxs, pure_bind, List.map_cons]

/-- A computation for each member of a list has an answer if and only if each of them has. -/
theorem mapM_eq_ok_iff {γ : Type} {f : γ → Consult ε α} {xs : List γ} {ys : List α} :
    (xs.mapM f).result = .ok ys ↔ List.Forall₂ (fun x y => (f x).result = .ok y) xs ys := by
  induction xs generalizing ys with
  | nil =>
    rw [List.forall₂_nil_left_iff]
    exact ⟨fun h => (Except.ok.inj h).symm, fun h => by rw [h]; rfl⟩
  | cons x xs ih =>
    rw [List.mapM_cons, result_bind_eq_ok_iff, List.forall₂_cons_left_iff]
    constructor
    · rintro ⟨y, hy, hrest⟩
      obtain ⟨zs, hzs, hpure⟩ := result_bind_eq_ok_iff.1 hrest
      exact ⟨y, zs, hy, ih.1 hzs, (Except.ok.inj hpure).symm⟩
    · rintro ⟨y, zs, hy, hzs, rfl⟩
      exact ⟨y, hy, result_bind_eq_ok_iff.2 ⟨zs, ih.2 hzs, rfl⟩⟩

theorem exists_of_forall₂ {γ : Type} {S : γ → α → Prop} {xs : List γ} {ys : List α}
    (h : List.Forall₂ S xs ys) : ∀ y ∈ ys, ∃ x ∈ xs, S x y := by
  induction h with
  | nil => simp
  | cons hxy _ ih =>
    intro z hz
    rcases List.mem_cons.1 hz with rfl | hz
    · exact ⟨_, List.mem_cons_self, hxy⟩
    · obtain ⟨x, hx, hxz⟩ := ih z hz
      exact ⟨x, List.mem_cons_of_mem _ hx, hxz⟩

theorem ofExcept_bind (r : Except ε α) (f : α → Except ε β) :
    (ofExcept (r >>= f) : Consult ε β) = ofExcept r >>= fun a => ofExcept (f a) := by
  cases r with
  | ok a => exact (LawfulMonad.pure_bind a fun a => ofExcept (f a)).symm
  | error e => rfl

theorem ofExcept_mapM {γ : Type} (f : γ → Except ε α) (xs : List γ) :
    (ofExcept (xs.mapM f) : Consult ε (List α)) = xs.mapM fun c => ofExcept (f c) := by
  induction xs with
  | nil => rfl
  | cons c xs ih =>
    rw [List.mapM_cons, List.mapM_cons, ofExcept_bind, ← ih]
    congr 1; funext a
    rw [ofExcept_bind]
    rfl

/-! ### Errors -/

theorem result_bind_eq_error_iff {f : α → Consult ε β} {e : ε} :
    (x >>= f).result = .error e ↔
      x.result = .error e ∨ ∃ a, x.result = .ok a ∧ (f a).result = .error e := by
  cases hx : x.result with
  | ok a => simp [bind_of_ok hx]
  | error e' => simp [bind_of_error hx]

theorem result_mapError_eq_error_iff {f : ε → δ} {d : δ} :
    (mapError f x).result = .error d ↔ ∃ e, x.result = .error e ∧ f e = d := by
  cases hx : x.result <;> simp [mapError, hx]

/-- A computation for each member of a list fails if one of them fails, with the error of the
first one that does. -/
theorem mapM_eq_error_iff {γ : Type} {f : γ → Consult ε α} {xs : List γ} {e : ε} :
    (xs.mapM f).result = .error e ↔ ∃ before c after, xs = before ++ c :: after ∧
      (∀ b ∈ before, ∃ a, (f b).result = .ok a) ∧ (f c).result = .error e := by
  induction xs with
  | nil =>
    constructor
    · intro h
      cases h
    · rintro ⟨before, c, after, h, -⟩
      exact absurd h.symm (List.append_ne_nil_of_right_ne_nil _ (List.cons_ne_nil c after))
  | cons x xs ih =>
    have hcons : ∀ a, (xs.mapM f >>= fun as => Pure.pure (a :: as)).result = .error e ↔
        (xs.mapM f).result = .error e := by
      intro a
      rw [result_bind_eq_error_iff, or_iff_left]
      rintro ⟨as, -, h⟩
      cases h
    rw [List.mapM_cons, result_bind_eq_error_iff]
    simp only [hcons, ih]
    constructor
    · rintro (he | ⟨a, ha, before, c, after, rfl, hok, hc⟩)
      · exact ⟨[], x, xs, rfl, List.forall_mem_nil _, he⟩
      · exact ⟨x :: before, c, after, rfl, List.forall_mem_cons.2 ⟨⟨a, ha⟩, hok⟩, hc⟩
    · rintro ⟨before, c, after, heq, hok, hc⟩
      cases before with
      | nil =>
        cases heq
        exact .inl hc
      | cons b before =>
        cases heq
        obtain ⟨⟨a, ha⟩, hok⟩ := List.forall_mem_cons.1 hok
        exact .inr ⟨a, ha, before, c, after, rfl, hok, hc⟩

/-- `x` has no answer, but an error that satisfies `E`. -/
def Fails (x : Consult ε α) (E : ε → Prop) : Prop := ∃ e, x.result = .error e ∧ E e

/-- A computation whose answer would have to be an impossible one. -/
theorem Ends.fails (hx : x.Ends P E) (hP : ∀ a, ¬ P a) : x.Fails E := by
  cases h : x.result with
  | ok a => exact absurd (hx.of_ok h) (hP a)
  | error e => exact ⟨e, h, hx.of_error h⟩

/-- After an error nothing is gone on with. -/
theorem Fails.bind {f : α → Consult ε β} (hx : x.Fails E) : (x >>= f).Fails E := by
  obtain ⟨e, he, hE⟩ := hx
  rw [bind_of_error he]
  exact ⟨e, rfl, hE⟩

theorem Ends.bind_fails {f : α → Consult ε β} (hx : x.Ends P E) (hf : ∀ a, P a → (f a).Fails E) :
    (x >>= f).Fails E := by
  cases h : x.result with
  | ok a =>
    rw [bind_of_ok h]
    exact hf a (hx.of_ok h)
  | error e => exact Fails.bind ⟨e, h, hx.of_error h⟩

/-- A list with a member fails if every member does, namely at the first one. -/
theorem fails_mapM {γ : Type} {f : γ → Consult ε α} {xs : List γ} (hxs : xs ≠ [])
    (h : ∀ c ∈ xs, (f c).Fails E) : (xs.mapM f).Fails E := by
  cases xs with
  | nil => exact absurd rfl hxs
  | cons c xs =>
    rw [List.mapM_cons]
    exact (h c List.mem_cons_self).bind

/-! ### What is asked for -/

/-- By the gauge `g`, a computation costs `n` if it has an answer, and no more than that if
it has none. -/
structure Costs (g : Gauge) (x : Consult ε α) (n : Nat) : Prop where
  le : g.read x.usage ≤ n
  eq (a : α) : x.result = .ok a → g.read x.usage = n

section

variable {g : Gauge} {n k : Nat}

theorem Costs.of_eq (hx : x.Costs g n) (h : n = k) : x.Costs g k := h ▸ hx

/-- Without any use there is nothing to pay. -/
theorem costs_of_nothing (h : x.usage = .nothing) : x.Costs g 0 := by
  have hread : g.read x.usage = 0 := by rw [h, g.read_nothing]
  exact ⟨Nat.le_of_eq hread, fun _ _ => hread⟩

theorem costs_pure {a : α} : (Pure.pure a : Consult ε α).Costs g 0 := costs_of_nothing rfl

theorem costs_ofExcept {r : Except ε α} : (ofExcept r).Costs g 0 := costs_of_nothing rfl

/-- An error may come before the whole price is paid. -/
theorem costs_fail {e : ε} : (fail e : Consult ε α).Costs g n where
  le := by
    show g.read .nothing ≤ n
    rw [g.read_nothing]
    exact Nat.zero_le n
  eq _ h := nomatch h

theorem costs_asking {c : Call} {r : Except ε α} :
    (asking c r).Costs g (g.read ⟨[c], 0⟩) := ⟨Nat.le_refl _, fun _ _ => rfl⟩

theorem costs_issuing : (issuing n : Consult ε Unit).Costs g (g.read ⟨[], n⟩) :=
  ⟨Nat.le_refl _, fun _ _ => rfl⟩

/-- The costs of consecutive computations add up. -/
theorem Costs.bind {f : α → Consult ε β} (hx : x.Costs g n)
    (hf : ∀ a, x.result = .ok a → (f a).Costs g k) : (x >>= f).Costs g (n + k) := by
  cases h : x.result with
  | ok a =>
    have hfa := hf a h
    rw [bind_of_ok h]
    constructor
    · show g.read (x.usage ++ (f a).usage) ≤ n + k
      rw [g.read_append, hx.eq a h]
      exact Nat.add_le_add_left hfa.le n
    · intro b hb
      show g.read (x.usage ++ (f a).usage) = n + k
      rw [g.read_append, hx.eq a h, hfa.eq b hb]
  | error e =>
    rw [bind_of_error h]
    exact ⟨Nat.le_trans hx.le (Nat.le_add_right n k), fun _ hb => nomatch hb⟩

theorem Costs.mapError {f : ε → δ} (hx : x.Costs g n) : (x.mapError f).Costs g n :=
  ⟨hx.le, fun a ha => hx.eq a (result_mapError_eq_ok_iff.1 ha)⟩

theorem costs_mapM {γ : Type} {f : γ → Consult ε α} {xs : List γ}
    (h : ∀ c ∈ xs, (f c).Costs g n) : (xs.mapM f).Costs g (xs.length * n) := by
  induction xs with
  | nil => exact costs_pure.of_eq (Nat.zero_mul n).symm
  | cons c xs ih =>
    obtain ⟨hc, hxs⟩ := List.forall_mem_cons.1 h
    rw [List.mapM_cons]
    refine (hc.bind fun a _ => (ih hxs).bind fun as _ => costs_pure).of_eq ?_
    rw [List.length_cons, Nat.succ_mul]
    omega

end

/-! ### What an error is due to -/

/-- If `x` ends with an error, then this error satisfies `E`, or it is due to the last call, as
`C` says. -/
def Blames (x : Consult ε α) (E : ε → Prop) (C : Call → ε → Prop) : Prop :=
  ∀ e, x.result = .error e →
    E e ∨ ∃ before call, x.usage.calls = before ++ [call] ∧ C call e

section

variable {C : Call → ε → Prop}

theorem Blames.mono {C' : Call → ε → Prop} (hx : x.Blames E C) (hE : ∀ e, E e → F e)
    (hC : ∀ c e, C c e → C' c e) : x.Blames F C' := by
  intro e he
  rcases hx e he with hE' | ⟨before, call, hcalls, hcall⟩
  · exact .inl (hE e hE')
  · exact .inr ⟨before, call, hcalls, hC call e hcall⟩

theorem blames_pure {a : α} : (Pure.pure a : Consult ε α).Blames E C := by
  intro e he
  cases he

theorem blames_ofExcept {r : Except ε α} (h : ∀ e, r = .error e → E e) :
    (ofExcept r).Blames E C := by
  intro e he
  exact .inl (h e he)

/-- One call, and what is made of its reply without another one. -/
theorem blames_asking {c : Call} {reply : Except ε α} {f : α → Consult ε β}
    (hf : ∀ a, (f a).usage = .nothing) (hreply : ∀ e, reply = .error e → E e ∨ C c e)
    (herror : ∀ a e, reply = .ok a → (f a).result = .error e → E e ∨ C c e) :
    (asking c reply >>= f).Blames E C := by
  have hlast : ∀ e, E e ∨ C c e → E e ∨ ∃ before call, [c] = before ++ [call] ∧ C call e := by
    rintro e (hE | hC)
    · exact .inl hE
    · exact .inr ⟨[], c, rfl, hC⟩
  cases reply with
  | error e =>
    rw [bind_of_error (x := asking c (.error e)) rfl]
    intro e' he
    cases he
    exact hlast e (hreply e rfl)
  | ok a =>
    rw [bind_of_ok (x := asking c (.ok a)) rfl, hf]
    intro e he
    exact hlast e (herror a e rfl he)

/-- Earlier calls are not to blame for a later error. -/
theorem Blames.bind {f : α → Consult ε β} (hx : x.Blames E C)
    (hf : ∀ a, x.result = .ok a → (f a).Blames E C) : (x >>= f).Blames E C := by
  intro e he
  cases h : x.result with
  | error e' =>
    rw [bind_of_error h] at he ⊢
    cases he
    exact hx e h
  | ok a =>
    rw [bind_of_ok h] at he ⊢
    rcases hf a h e he with hE | ⟨before, call, hcalls, hC⟩
    · exact .inl hE
    · refine .inr ⟨x.usage.calls ++ before, call, ?_, hC⟩
      rw [Usage.calls_append, hcalls, List.append_assoc]

theorem Blames.mapError {f : ε → δ} {E : δ → Prop} {C : Call → δ → Prop}
    (hx : x.Blames (fun e => E (f e)) fun c e => C c (f e)) : (x.mapError f).Blames E C := by
  obtain ⟨usage, result⟩ := x
  intro e he
  cases result with
  | ok a => cases he
  | error e' =>
    cases he
    exact hx e' rfl

theorem blames_mapM {γ : Type} {f : γ → Consult ε α} {xs : List γ}
    (h : ∀ c ∈ xs, (f c).Blames E C) : (xs.mapM f).Blames E C := by
  induction xs with
  | nil => exact blames_pure
  | cons c xs ih =>
    obtain ⟨hc, hxs⟩ := List.forall_mem_cons.1 h
    rw [List.mapM_cons]
    exact hc.bind fun a _ => (ih hxs).bind fun as _ => blames_pure

end

/-! ### Two computations -/

/-- What comes after two computations that end alike ends alike. -/
theorem result_bind_congr {y : Consult ε α} {f g : α → Consult ε β} (h : x.result = y.result)
    (hfg : ∀ a, x.result = .ok a → (f a).result = (g a).result) :
    (x >>= f).result = (y >>= g).result := by
  cases hx : x.result with
  | ok a =>
    rw [bind_of_ok hx, bind_of_ok (h ▸ hx)]
    exact hfg a hx
  | error e => rw [bind_of_error hx, bind_of_error (h ▸ hx)]

theorem result_mapError_congr {y : Consult ε α} (f : ε → δ) (h : x.result = y.result) :
    (x.mapError f).result = (y.mapError f).result := by
  unfold mapError
  rw [h]

/-- Whenever both computations have an answer, the answers stand in the relation `S`. -/
def Relates (x : Consult ε α) (y : Consult δ β) (S : α → β → Prop) : Prop :=
  ∀ a b, x.result = .ok a → y.result = .ok b → S a b

section

variable {φ α' β' : Type} {y : Consult δ β} {S S' : α → β → Prop} {T : α' → β' → Prop}

theorem Relates.mono (h : x.Relates y S) (hS : ∀ a b, S a b → S' a b) : x.Relates y S' := by
  intro a b ha hb
  exact hS a b (h a b ha hb)

/-- A computation has one answer. -/
theorem relates_self (x : Consult ε α) : x.Relates x Eq := by
  intro a b ha hb
  rw [ha] at hb
  exact Except.ok.inj hb

theorem relates_pure {a : α} {b : β} (h : S a b) :
    (Pure.pure a : Consult ε α).Relates (Pure.pure b : Consult δ β) S := by
  intro a' b' ha hb
  cases ha
  cases hb
  exact h

theorem relates_fail {e : ε} : (fail e : Consult ε α).Relates y S := by
  intro a b ha _
  cases ha

/-- Two computations that have nothing to do with each other. -/
theorem Ends.relates {G : δ → Prop} (hx : x.Ends P E) (hy : y.Ends R G)
    (h : ∀ a b, P a → R b → S a b) : x.Relates y S := by
  intro a b ha hb
  exact h a b (hx.of_ok ha) (hy.of_ok hb)

/-- What is known of each of the two computations may be used to relate them. -/
theorem Relates.and_ends {G : δ → Prop} (h : x.Relates y S) (hx : x.Ends P E)
    (hy : y.Ends R G) : x.Relates y fun a b => S a b ∧ P a ∧ R b := by
  intro a b ha hb
  exact ⟨h a b ha hb, hx.of_ok ha, hy.of_ok hb⟩

/-- Step by step: the second computations start from related answers. -/
theorem Relates.bind {f : α → Consult ε α'} {g : β → Consult δ β'} (h : x.Relates y S)
    (hfg : ∀ a b, S a b → (f a).Relates (g b) T) : (x >>= f).Relates (y >>= g) T := by
  intro a' b' ha' hb'
  obtain ⟨a, ha, hfa⟩ := result_bind_eq_ok_iff.1 ha'
  obtain ⟨b, hb, hgb⟩ := result_bind_eq_ok_iff.1 hb'
  exact hfg a b (h a b ha hb) a' b' hfa hgb

/-- Rewording errors changes no answer. -/
theorem Relates.mapError {f : ε → φ} {g : δ → φ} (h : x.Relates y S) :
    (x.mapError f).Relates (y.mapError g) S := by
  intro a b ha hb
  exact h a b (result_mapError_eq_ok_iff.1 ha) (result_mapError_eq_ok_iff.1 hb)

end

end Consult

/-! ### Faults -/

/-- The fault is an error, not a breach. -/
def Fault.IsError {ε : Type} (f : Fault ε) : Prop := ∃ e, f = .error e

theorem Fault.IsError.map {ε δ : Type} {f : Fault ε} (g : ε → δ) (h : f.IsError) :
    (f.map g).IsError := by
  obtain ⟨e, rfl⟩ := h
  exact ⟨g e, rfl⟩

theorem Fault.isError_error {ε : Type} (e : ε) : (Fault.error e).IsError := ⟨e, rfl⟩

end MultiHop
