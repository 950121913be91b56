import Cgkits.Lib.Outcome
import Mathlib.Data.List.Basic

/-!
# Computations that are watched

A computation changes a state step by step and may stop with an error.  A `Watched` computation also
gives the states it passes through, one for each write, so that something can be said of every
moment of a run and not only of its end.

`Keeps I E Q m s` says that the run of `m` from `s` passes through states with `I` only, and that it
stops with an error as in `E` or returns a value as in `Q`.  `Simulates I B R m f s` compares the
run with a result that is computed otherwise: `m` stops, with an error as in `B`, exactly when `f`
is `none`, and else the two results are related by `R`.  There is a rule for each way to build a
computation.
-/

universe u

/-- A computation with a state: the states behind its writes, and what it returns together with the
last state. -/
def Watched (ε σ α : Type u) : Type u := σ → List σ × Except ε (α × σ)

namespace Watched

variable {ε σ α β γ δ : Type u}

/-- The states behind the writes of a run, in order. -/
def states (m : Watched ε σ α) (s : σ) : List σ := (m s).1

/-- What a run returns with the last state, or the error with which it stops. -/
def result (m : Watched ε σ α) (s : σ) : Except ε (α × σ) := (m s).2

/-- One computation and then another one.  An error stops both. -/
def andThen (m : Watched ε σ α) (k : α → Watched ε σ β) : Watched ε σ β := fun s =>
  match m s with
  | (l, .error e) => (l, .error e)
  | (l, .ok (a, t)) => (l ++ (k a t).1, (k a t).2)

instance : Monad (Watched ε σ) where
  pure a := fun s => ([], .ok (a, s))
  bind := andThen

/-- Read the state, which is not a change and is not watched. -/
def read : Watched ε σ σ := fun s => ([], .ok (s, s))

/-- Change the state by `f`, which is watched. -/
def write (f : σ → σ) : Watched ε σ PUnit := fun s => ([f s], .ok (⟨⟩, f s))

/-- Stop with the error `e`, with no change of the state. -/
def stop (e : ε) : Watched ε σ α := fun _ => ([], .error e)

/-- The run from `s` passes through states with `I` only.  It stops with an error as in `E`, or it
returns a value as in `Q`, which may also speak of the last state. -/
structure Keeps (I : σ → Prop) (E : ε → Prop) (Q : α → σ → Prop) (m : Watched ε σ α) (s : σ) :
    Prop where
  /-- Every state that is passed satisfies `I`. -/
  states : ∀ t ∈ m.states s, I t
  /-- The result satisfies `Q`, or the fault `E`. -/
  result : Outcome.Post E (fun r => Q r.1 r.2) (m.result s)

/-- The run from `s` passes through states with `I` only.  It stops exactly when there is no result
`f`, and then with an error as in `B`; what it returns is related to this result. -/
def Simulates (I : σ → Prop) (B : ε → Prop) (R : α → σ → γ → Prop) (m : Watched ε σ α)
    (f : Option γ) (s : σ) : Prop :=
  Keeps I (fun e => f = none ∧ B e) (fun a t => ∃ c, f = some c ∧ R a t c) m s

variable {I : σ → Prop} {B E E' : ε → Prop} {P Q Q' : α → σ → Prop} {S : β → σ → Prop}
  {m : Watched ε σ α} {k : α → Watched ε σ β} {s : σ} {a : α} {e : ε} {g : σ → σ}

/-! ## Postconditions -/

/-- The rule of consequence: what is known of the errors and of the result may be weakened. -/
lemma Keeps.imp (h : Keeps I E Q m s) (hE : ∀ e, E e → E' e) (hQ : ∀ a t, Q a t → Q' a t) :
    Keeps I E' Q' m s :=
  ⟨h.states, h.result.imp hE fun r hr => hQ r.1 r.2 hr⟩

/-- What is known of a run that never stops with an error holds without a condition on errors. -/
lemma Keeps.total (h : Keeps I (fun _ => False) Q m s) (hQ : ∀ a t, Q a t → Q' a t) :
    Keeps I E Q' m s :=
  h.imp (fun _ he => he.elim) hQ

/-- Returning a value writes nothing, so that the invariant is kept and the postcondition has to
hold already. -/
lemma Keeps.pure (h : Q a s) : Keeps I E Q (pure a) s := ⟨fun _ ht => absurd ht List.not_mem_nil, h⟩

/-- The rule for a computation that is followed by another one: all states that both write satisfy
the invariant. -/
lemma Keeps.bind (h : Keeps I E P m s) (hk : ∀ a t, P a t → Keeps I E S (k a) t) :
    Keeps I E S (m >>= k) s := by
  obtain ⟨hstates, hresult⟩ := h
  change Keeps I E S (andThen m k) s
  unfold Watched.states at hstates
  unfold Watched.result at hresult
  generalize hrun : m s = r at hstates hresult
  obtain ⟨l, e | ⟨a, t⟩⟩ := r
  · have heq : andThen m k s = (l, .error e) := by rw [andThen, hrun]
    constructor
    · rw [Watched.states, heq]
      exact hstates
    · rw [Watched.result, heq]
      exact hresult
  · obtain ⟨hstates', hresult'⟩ := hk a t hresult
    have heq : andThen m k s = (l ++ (k a t).1, (k a t).2) := by rw [andThen, hrun]
    constructor
    · rw [Watched.states, heq]
      intro u hu
      rcases List.mem_append.mp hu with hu | hu
      · exact hstates u hu
      · exact hstates' u hu
    · rw [Watched.result, heq]
      exact hresult'

/-- A computation that only reads can be left out in front of what follows. -/
lemma bind_of_run {t : σ} (h : m s = ([], .ok (a, t))) : (m >>= k) s = k a t := by
  change andThen m k s = k a t
  rw [andThen, h]
  rfl

/-- A computation that only reads, in front of another one. -/
lemma Keeps.silent {t : σ} (h : m s = ([], .ok (a, t))) (hk : Keeps I E S (k a) t) :
    Keeps I E S (m >>= k) s := by
  constructor
  · rw [Watched.states, bind_of_run h]
    exact hk.states
  · rw [Watched.result, bind_of_run h]
    exact hk.result

/-- A write keeps the invariant when the state that it leads to satisfies it. -/
lemma Keeps.write {Q : PUnit → σ → Prop} (hI : I (g s)) (h : Q ⟨⟩ (g s)) :
    Keeps I E Q (write g) s :=
  ⟨fun _ ht => List.mem_singleton.mp ht ▸ hI, h⟩

/-- Stopping with an error keeps the invariant when the error is one that is allowed. -/
lemma Keeps.stop (h : E e) : Keeps I E Q (stop e) s := ⟨fun _ ht => absurd ht List.not_mem_nil, h⟩

/-! ## Simulation -/

variable {R : α → σ → γ → Prop} {R' : α → σ → γ → Prop} {T : β → σ → δ → Prop} {f : Option γ}
  {c : γ} {h : γ → Option δ}

/-- The relation between the results of a simulation may be weakened. -/
lemma Simulates.imp (hm : Simulates I B R m f s) (hR : ∀ a t c, R a t c → R' a t c) :
    Simulates I B R' m f s :=
  Keeps.imp hm (fun _ he => he) fun a t ht => ht.imp fun c hc => ⟨hc.1, hR a t c hc.2⟩

/-- What a simulated computation returns is related to a result of the abstract computation. -/
lemma Simulates.with_result (hm : Simulates I B R m f s) :
    Simulates I B (fun a t c => f = some c ∧ R a t c) m f s :=
  Keeps.imp hm (fun _ he => he) fun _ _ ht => ht.imp fun _ hc => ⟨hc.1, hc⟩

/-- Returning related values is a simulation. -/
lemma Simulates.pure (hR : R a s c) : Simulates I B R (pure a : Watched ε σ α) (some c) s :=
  Keeps.pure ⟨c, rfl, hR⟩

/-- Stopping with an error simulates a computation that has no result. -/
lemma Simulates.stop (h : B e) : Simulates I B R (stop e) none s := Keeps.stop ⟨rfl, h⟩

/-- The rule for simulations that follow each other: related results of the first are carried on by
the second. -/
lemma Simulates.bind (hm : Simulates I B R m f s)
    (hk : ∀ a t c, R a t c → Simulates I B T (k a) (h c) t) :
    Simulates I B T (m >>= k) (f.bind h) s := by
  refine Keeps.bind (Keeps.imp hm ?_ fun _ _ hR => hR) ?_
  · rintro e ⟨hf, he⟩
    rw [hf]
    exact ⟨rfl, he⟩
  · rintro a t ⟨c, rfl, hr⟩
    exact hk a t c hr

/-- A function may be applied to the value that a simulating computation returns. -/
lemma Simulates.map {S : β → σ → γ → Prop} {g : α → β} (hm : Simulates I B R m f s)
    (hR : ∀ a t c, R a t c → S (g a) t c) :
    Simulates I B S (m >>= fun a => Pure.pure (g a) : Watched ε σ β) f s :=
  Keeps.bind hm fun a t ht => Keeps.pure (ht.imp fun c hc => ⟨hc.1, hR a t c hc.2⟩)

/-- A computation that only reads, in front of another one. -/
lemma Simulates.silent {q : Option δ} {t : σ} (hm : m s = ([], .ok (a, t)))
    (hk : Simulates I B T (k a) q t) : Simulates I B T (m >>= k) q s := Keeps.silent hm hk

/-- A computation to which nothing corresponds, in front of another one. -/
lemma Simulates.seq {q : Option δ} (hm : Keeps I (fun _ => False) P m s)
    (hk : ∀ a t, P a t → Simulates I B T (k a) q t) : Simulates I B T (m >>= k) q s :=
  Keeps.bind (hm.total fun _ _ hP => hP) hk

/-- A pass over a list and a pass over the list of the elements that correspond. -/
lemma Simulates.foldlM {ι κ : Type u} {p : α → ι → Watched ε σ α} {q : γ → κ → Option γ}
    {V : ι → κ → Prop} {l : List ι} {l' : List κ} (hl : List.Forall₂ V l l')
    (hstep : ∀ i j b t d, V i j → R b t d → Simulates I B R (p b i) (q d j) t) {b : α} {d : γ}
    (hR : R b s d) : Simulates I B R (l.foldlM p b) (l'.foldlM q d) s := by
  induction hl generalizing b d s with
  | nil => exact Simulates.pure hR
  | cons hij _ ih =>
    rw [List.foldlM_cons, List.foldlM_cons]
    exact Simulates.bind (hstep _ _ _ _ _ hij hR) fun b' t d' hR' => ih hR'

end Watched
