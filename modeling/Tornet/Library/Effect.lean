import Mathlib.Data.List.Basic
import Mathlib.Order.Defs.Unbundled

/-! Handlers that may stop with an exception: the state reached so far survives it.
`Post` is the rule set for them, with a second postcondition for the exception; `Triple` is the
same where it does not matter which exception it was. -/
namespace Tornet.Library

/-- A computation over a state `σ` that returns an `α` or stops with an `ε`. -/
def Eff (σ ε α : Type) : Type := σ → Except ε α × σ

namespace Eff

variable {σ ε α β γ : Type}

protected def bind (m : Eff σ ε α) (f : α → Eff σ ε β) : Eff σ ε β := fun s =>
  match m s with
  | (.ok a, t) => f a t
  | (.error e, t) => (.error e, t)

instance : Monad (Eff σ ε) where
  pure a := fun s => (.ok a, s)
  bind := Eff.bind

def get : Eff σ ε σ := fun s => (.ok s, s)

def modify (f : σ → σ) : Eff σ ε Unit := fun s => (.ok (), f s)

def throw (e : ε) : Eff σ ε α := fun s => (.error e, s)

/-- An `if` without `else`. -/
def when (b : Bool) (m : Eff σ ε Unit) : Eff σ ε Unit := if b then m else pure ()

/-- The state a handler leaves, however it ends. -/
def final (m : Eff σ ε α) (s : σ) : σ := (m s).2

/-- Why a handler stops, if it does. -/
def stop (m : Eff σ ε α) (s : σ) : Option ε :=
  match (m s).1 with
  | .ok _ => none
  | .error e => some e

theorem eq_error_of_stop {m : Eff σ ε α} {s : σ} {e : ε} (h : m.stop s = some e) : (m s).1 = .error e := by
  rw [stop] at h
  split at h
  · cases h
  · rename_i heq
    rw [heq, Option.some.inj h]

theorem get_bind_apply (f : σ → Eff σ ε α) (s : σ) : (get >>= f) s = f s s := rfl

theorem modify_bind_apply (g : σ → σ) (f : Unit → Eff σ ε α) (s : σ) : (modify g >>= f) s = f () (g s) := rfl

theorem bind_assoc (m : Eff σ ε α) (f : α → Eff σ ε β) (g : β → Eff σ ε γ) :
    m >>= f >>= g = m >>= fun a => f a >>= g := by
  funext s
  show Eff.bind (Eff.bind m f) g s = Eff.bind m (fun a => Eff.bind (f a) g) s
  simp only [Eff.bind]
  rcases m s with ⟨_ | _, t⟩ <;> rfl

theorem bind_ok {m : Eff σ ε α} {f : α → Eff σ ε β} {s t : σ} {a : α} (h : m s = (.ok a, t)) : (m >>= f) s = f a t := by
  show Eff.bind m f s = f a t
  rw [Eff.bind, h]

theorem bind_error {m : Eff σ ε α} {f : α → Eff σ ε β} {s t : σ} {e : ε} (h : m s = (.error e, t)) :
    (m >>= f) s = (.error e, t) := by
  show Eff.bind m f s = (.error e, t)
  rw [Eff.bind, h]

/-- The handler never stops for this reason. -/
def Never (e : ε) (m : Eff σ ε α) : Prop := ∀ s, m.stop s ≠ some e

section Never
variable {e : ε}

theorem Never.ne {m : Eff σ ε α} (h : Never e m) {s t : σ} {e' : ε} (hm : m s = (.error e', t)) : e' ≠ e := by
  rintro rfl
  exact h s (by rw [stop, hm])

theorem Never.pure (a : α) : Never e (pure a : Eff σ ε α) := fun _ h => by cases h

theorem Never.modify (f : σ → σ) : Never e (modify f : Eff σ ε Unit) := fun _ h => by cases h

theorem Never.throw {e' : ε} (hne : e' ≠ e) : Never e (throw e' : Eff σ ε α) := fun _ h => hne (Option.some.inj h)

theorem Never.bind {m : Eff σ ε α} {f : α → Eff σ ε β} (hm : Never e m) (hf : ∀ a, Never e (f a)) : Never e (m >>= f) := by
  intro s
  have h := hm s
  rw [stop] at h ⊢
  rcases hms : m s with ⟨e' | a, t⟩
  · rw [bind_error hms]
    rw [hms] at h
    exact h
  · rw [bind_ok hms]
    exact hf a t

theorem Never.get_bind {f : σ → Eff σ ε α} (hf : ∀ s, Never e (f s)) : Never e (get >>= f) := fun s => hf s s

theorem Never.ite {b : Prop} [Decidable b] {m m' : Eff σ ε α} (hm : Never e m) (hm' : Never e m') :
    Never e (if b then m else m') := by
  split_ifs
  · exact hm
  · exact hm'

theorem Never.when {b : Bool} {m : Eff σ ε Unit} (hm : Never e m) : Never e (Eff.when b m) := Never.ite hm (Never.pure _)

end Never

/-- From `P` the handler returns in `Q`, or stops in `E`, which may look at why. -/
def Post (P : σ → Prop) (m : Eff σ ε α) (Q : α → σ → Prop) (E : ε → σ → Prop) : Prop :=
  ∀ s, P s → match m s with
    | (.ok a, t) => Q a t
    | (.error e, t) => E e t

section Post
variable {P P' : σ → Prop} {Q Q' : α → σ → Prop} {E E' : ε → σ → Prop}

theorem Post.pure {a : α} (h : ∀ s, P s → Q a s) : Post P (pure a : Eff σ ε α) Q E := h

theorem Post.throw {e : ε} (h : ∀ s, P s → E e s) : Post P (throw e : Eff σ ε α) Q E := h

theorem Post.modify {f : σ → σ} {Q : Unit → σ → Prop} (h : ∀ s, P s → Q () (f s)) :
    Post P (modify f : Eff σ ε Unit) Q E := h

theorem Post.bind {m : Eff σ ε α} {f : α → Eff σ ε β} {R : α → σ → Prop} {Q : β → σ → Prop}
    (hm : Post P m R E) (hf : ∀ a, Post (R a) (f a) Q E) : Post P (m >>= f) Q E := by
  intro s hs
  have h := hm s hs
  show match Eff.bind m f s with
    | (.ok b, t) => Q b t
    | (.error e, t) => E e t
  rw [Eff.bind]
  split at h
  · exact hf _ _ h
  · exact h

theorem Post.conseq {m : Eff σ ε α} (h : Post P m Q E) (hp : ∀ s, P' s → P s)
    (hq : ∀ a s, Q a s → Q' a s) (he : ∀ e s, E e s → E' e s) : Post P' m Q' E' := by
  intro s hs
  have hm := h s (hp s hs)
  split at hm
  · exact hq _ _ hm
  · exact he _ _ hm

theorem Post.ite {b : Prop} [Decidable b] {m m' : Eff σ ε α}
    (ht : b → Post P m Q E) (hf : ¬ b → Post P m' Q E) : Post P (if b then m else m') Q E := by
  split_ifs with h
  · exact ht h
  · exact hf h

/-- Reading the state names it: the rest starts in exactly that state. -/
theorem Post.get_bind {f : σ → Eff σ ε α} (h : ∀ s, P s → Post (fun t => t = s) (f s) Q E) :
    Post P (Eff.get >>= f) Q E :=
  fun s hs => h s hs s rfl

/-- What is known of the state that was read still holds of it. -/
theorem Post.named {m : Eff σ ε α} {s : σ} (h : Post P m Q E) (hs : P s) : Post (fun t => t = s) m Q E :=
  h.conseq (fun _ ht => ht ▸ hs) (fun _ _ => id) fun _ _ => id

theorem Post.get_keep {f : σ → Eff σ ε α} (h : ∀ s, P s → Post P (f s) Q E) : Post P (Eff.get >>= f) Q E :=
  .get_bind fun s hs => (h s hs).named hs

theorem Post.when {b : Bool} {m : Eff σ ε Unit} {R : Unit → σ → Prop} (hm : b = true → Post P m R E)
    (hp : b = false → ∀ s, P s → R () s) : Post P (Eff.when b m) R E := by
  cases b with
  | true => exact hm rfl
  | false => exact Post.pure (hp rfl)

/-- Whatever holds where it stops. -/
theorem Post.quiet {m : Eff σ ε α} (h : Post P m Q E) : Post P m Q fun _ _ => True :=
  h.conseq (fun _ => id) (fun _ _ => id) fun _ _ _ => True.intro

theorem Post.exists {ι : Type} {P : ι → σ → Prop} {m : Eff σ ε α} (h : ∀ i, Post (P i) m Q E) :
    Post (fun s => ∃ i, P i s) m Q E := by
  intro s hs
  obtain ⟨i, hi⟩ := hs
  exact h i s hi

/-- A fact about other things stays. -/
theorem Post.and {m : Eff σ ε α} {p : Prop} (h : Post P m Q fun _ _ => True) :
    Post (fun s => P s ∧ p) m (fun a s => Q a s ∧ p) fun _ _ => True := by
  intro s hs
  have hm := h s hs.1
  split at hm
  · exact ⟨hm, hs.2⟩
  · exact hm

theorem Post.trivial {m : Eff σ ε α} : Post P m (fun _ _ => True) fun _ _ => True := by
  intro s _
  split <;> exact True.intro

/-- What comes first does not matter. -/
theorem Post.skip {m : Eff σ ε α} {f : α → Eff σ ε β} {Q : β → σ → Prop}
    (hf : ∀ a, Post (fun _ => True) (f a) Q fun _ _ => True) : Post P (m >>= f) Q fun _ _ => True :=
  .bind .trivial hf

end Post

/-- From `P` the handler returns in `Q`, or stops in `E`. -/
def Triple (P : σ → Prop) (m : Eff σ ε α) (Q : α → σ → Prop) (E : σ → Prop) : Prop :=
  ∀ s, P s → match m s with
    | (.ok a, t) => Q a t
    | (.error _, t) => E t

variable {P P' : σ → Prop} {Q Q' : α → σ → Prop} {E E' : σ → Prop}

/-- A triple is a `Post` that does not ask why the handler stopped. -/
theorem triple_iff_post {m : Eff σ ε α} : Triple P m Q E ↔ Post P m Q fun _ => E := Iff.rfl

theorem Triple.pure {a : α} (h : ∀ s, P s → Q a s) : Triple P (pure a : Eff σ ε α) Q E := h

theorem Triple.throw {e : ε} (h : ∀ s, P s → E s) : Triple P (throw e : Eff σ ε α) Q E := h

theorem Triple.modify {f : σ → σ} {Q : Unit → σ → Prop} (h : ∀ s, P s → Q () (f s)) :
    Triple P (modify f : Eff σ ε Unit) Q E := h

theorem Triple.bind {m : Eff σ ε α} {f : α → Eff σ ε β} {R : α → σ → Prop} {Q : β → σ → Prop}
    (hm : Triple P m R E) (hf : ∀ a, Triple (R a) (f a) Q E) : Triple P (m >>= f) Q E :=
  triple_iff_post.mpr (Post.bind (triple_iff_post.mp hm) fun a => triple_iff_post.mp (hf a))

theorem Triple.conseq {m : Eff σ ε α} (h : Triple P m Q E) (hp : ∀ s, P' s → P s)
    (hq : ∀ a s, Q a s → Q' a s) (he : ∀ s, E s → E' s) : Triple P' m Q' E' :=
  triple_iff_post.mpr ((triple_iff_post.mp h).conseq hp hq fun _ => he)

theorem Triple.ite {b : Prop} [Decidable b] {m m' : Eff σ ε α}
    (ht : b → Triple P m Q E) (hf : ¬ b → Triple P m' Q E) : Triple P (if b then m else m') Q E :=
  Post.ite ht hf

/-- Reading the state names it: the rest starts in exactly that state. -/
theorem Triple.get_bind {f : σ → Eff σ ε α} (h : ∀ s, P s → Triple (fun t => t = s) (f s) Q E) :
    Triple P (Eff.get >>= f) Q E :=
  Post.get_bind h

theorem Triple.final {m : Eff σ ε α} {R : σ → Prop} (h : Triple P m (fun _ => R) R) {s : σ} (hs : P s) :
    R (m.final s) := by
  have hm := h s hs
  rw [Eff.final]
  split at hm <;> (rename_i heq; rw [heq]; exact hm)

/-- However the handler ends, the state it leaves is related to the one it found. -/
def Along (R : σ → σ → Prop) (m : Eff σ ε α) : Prop := ∀ s, R s (m.final s)

section Along
variable {R R' : σ → σ → Prop}

theorem Along.mono {m : Eff σ ε α} (h : Along R m) (hR : ∀ s t, R s t → R' s t) : Along R' m := fun s => hR _ _ (h s)

theorem Along.modify {g : σ → σ} (h : ∀ s, R s (g s)) : Along R (modify g : Eff σ ε Unit) := h

theorem Along.get_bind {k : σ → Eff σ ε α} (hk : ∀ s, Along R (k s)) : Along R (Eff.get >>= k) := fun s => hk s s

theorem Along.ite {b : Prop} [Decidable b] {m m' : Eff σ ε α} (hm : Along R m) (hm' : Along R m') :
    Along R (if b then m else m') := by
  split_ifs
  · exact hm
  · exact hm'

variable [IsPreorder σ R]

theorem Along.pure (a : α) : Along R (pure a : Eff σ ε α) := fun s => refl_of R s

theorem Along.throw (e : ε) : Along R (throw e : Eff σ ε α) := fun s => refl_of R s

theorem Along.bind {m : Eff σ ε α} {k : α → Eff σ ε β} (hm : Along R m) (hk : ∀ a, Along R (k a)) : Along R (m >>= k) := by
  intro s
  have h := hm s
  show R s (Eff.bind m k s).2
  unfold Eff.final at h
  rw [Eff.bind]
  split
  · rename_i a t heq
    rw [heq] at h
    exact trans_of R h (hk a t)
  · rename_i e t heq
    rw [heq] at h
    exact h

theorem Along.when {b : Bool} {m : Eff σ ε Unit} (hm : Along R m) : Along R (Eff.when b m) := .ite hm (.pure _)

end Along

/-- The handler leaves the part `f` of the state as it was, whether it returns or stops. -/
def Frame {τ : Type} (f : σ → τ) (m : Eff σ ε α) : Prop := ∀ s, f (m.final s) = f s

section Frame
variable {τ : Type} {f : σ → τ}

theorem Frame.pure (a : α) : Frame f (pure a : Eff σ ε α) := fun _ => rfl

theorem Frame.throw (e : ε) : Frame f (throw e : Eff σ ε α) := fun _ => rfl

theorem Frame.modify {g : σ → σ} (h : ∀ s, f (g s) = f s) : Frame f (modify g : Eff σ ε Unit) := h

theorem Frame.bind {m : Eff σ ε α} {k : α → Eff σ ε β} (hm : Frame f m) (hk : ∀ a, Frame f (k a)) :
    Frame f (m >>= k) := by
  intro s
  have h := hm s
  show f (Eff.bind m k s).2 = f s
  unfold Eff.final at h
  rw [Eff.bind]
  split
  · rename_i a t heq
    rw [heq] at h
    exact (hk a t).trans h
  · rename_i e t heq
    rw [heq] at h
    exact h

theorem Frame.get_bind {k : σ → Eff σ ε α} (hk : ∀ s, Frame f (k s)) : Frame f (Eff.get >>= k) :=
  fun s => hk s s

theorem Frame.ite {b : Prop} [Decidable b] {m m' : Eff σ ε α} (hm : Frame f m) (hm' : Frame f m') :
    Frame f (if b then m else m') := by
  split_ifs
  · exact hm
  · exact hm'

theorem Frame.when {b : Bool} {m : Eff σ ε Unit} (hm : Frame f m) : Frame f (Eff.when b m) :=
  Frame.ite hm (Frame.pure _)

/-- A part of the framed part. -/
theorem Frame.map {υ : Type} {g : σ → υ} {m : Eff σ ε α} (h : Frame f m) (p : τ → υ) (hg : ∀ s, g s = p (f s)) :
    Frame g m := by
  intro s
  rw [hg, h s, ← hg]

/-- What depends on the framed part only is kept. -/
theorem Frame.triple {m : Eff σ ε α} (h : Frame f m) (P : τ → Prop) :
    Triple (fun s => P (f s)) m (fun _ s => P (f s)) (fun s => P (f s)) := by
  intro s hs
  have hf := h s
  unfold Eff.final at hf
  split <;>
  · rename_i t heq
    rw [heq] at hf
    exact (congrArg P hf).mpr hs

end Frame
end Eff
end Tornet.Library
