import AssetBridge.Log.Event

/-!
# Computations that leave a trail

A conversion reports events while it runs and may fail at any point. The events up to that point
have happened, so they are kept beside the failure.

## Main definitions

* `Trail`: the events of a computation and its outcome.
* `Trail.note`, `Trail.ofExcept`: reporting an event, and a computation that reports none.

## Main results

* `Trail.outcome_bind`: the outcome of a sequence is the sequence of the outcomes, so events never
  decide anything.
* `LawfulMonad (Trail ε)`.
-/

namespace AssetBridge

/-- The events of a computation, and its outcome. -/
structure Trail (ε α : Type) where
  events : List Event
  outcome : Except ε α

namespace Trail

variable {ε ε' α β : Type}

/-- A computation that reports nothing. -/
def ofExcept (x : Except ε α) : Trail ε α := ⟨[], x⟩

/-- Reports an event. -/
def note (e : Event) : Trail ε Unit := ⟨[e], .ok ()⟩

/-- Reports an event under a condition. -/
def noteWhen (b : Bool) (e : Event) : Trail ε Unit := ⟨if b then [e] else [], .ok ()⟩

/-- **Sequence**: the events of the first part stay when it fails. -/
protected def bind (x : Trail ε α) (f : α → Trail ε β) : Trail ε β :=
  match x.outcome with
  | .ok a => ⟨x.events ++ (f a).events, (f a).outcome⟩
  | .error e => ⟨x.events, .error e⟩

instance : Monad (Trail ε) where
  pure a := ofExcept (.ok a)
  bind := Trail.bind

instance : MonadLift (Except ε) (Trail ε) := ⟨ofExcept⟩

/-- The same trail with another kind of failure. -/
def mapError (f : ε → ε') (x : Trail ε α) : Trail ε' α := ⟨x.events, x.outcome.mapError f⟩

@[simp] theorem outcome_ofExcept (x : Except ε α) : (ofExcept x).outcome = x := rfl

@[simp] theorem events_ofExcept (x : Except ε α) : (ofExcept x).events = [] := rfl

@[simp] theorem outcome_note (e : Event) : (note e : Trail ε Unit).outcome = .ok () := rfl

@[simp] theorem outcome_noteWhen (b : Bool) (e : Event) :
    (noteWhen b e : Trail ε Unit).outcome = .ok () := rfl

@[simp] theorem outcome_pure (a : α) : (pure a : Trail ε α).outcome = .ok a := rfl

@[simp] theorem outcome_mapError (f : ε → ε') (x : Trail ε α) :
    (x.mapError f).outcome = x.outcome.mapError f := rfl

/-- The outcome of a sequence is the sequence of the outcomes. -/
@[simp] theorem outcome_bind (x : Trail ε α) (f : α → Trail ε β) :
    (x >>= f).outcome = x.outcome >>= fun a => (f a).outcome := by
  obtain ⟨events, outcome⟩ := x
  cases outcome <;> rfl

/-- Two trails are equal when their events and their outcomes are. -/
theorem ext {x y : Trail ε α} (he : x.events = y.events) (ho : x.outcome = y.outcome) : x = y := by
  cases x
  cases y
  simp_all

instance : LawfulMonad (Trail ε) := LawfulMonad.mk' (Trail ε)
  (fun x => by
    obtain ⟨events, outcome⟩ := x
    cases outcome <;> simp [Functor.map, Trail.bind, ofExcept])
  (fun a f => by simp [Bind.bind, Trail.bind, Pure.pure, ofExcept])
  (fun x f g => by
    obtain ⟨events, outcome⟩ := x
    cases outcome with
    | error e => rfl
    | ok a =>
      cases h : (f a).outcome <;> simp [Bind.bind, Trail.bind, h])

@[simp] theorem outcome_map (f : α → β) (x : Trail ε α) : (f <$> x).outcome = f <$> x.outcome := by
  obtain ⟨events, outcome⟩ := x
  cases outcome <;> rfl

/-- So is the outcome of a list of computations. -/
@[simp] theorem outcome_mapM (f : α → Trail ε β) (l : List α) :
    (l.mapM f).outcome = l.mapM fun a => (f a).outcome := by
  induction l with
  | nil => rfl
  | cons a l ih =>
    simp only [List.mapM_cons, outcome_bind, outcome_pure, ih]
    rfl

end Trail

end AssetBridge
