/-!
# Outcomes

What a computation that may fail gives when its parts are looked at one by one. Where only success
counts, the errors can be left out.

## Main results

* `Except.toOption_bind`, `Except.toOption_mapM`: leaving the errors out part by part
* `Except.exists_of_bind_eq_ok`: a sequence that succeeds
* `Except.mapM_eq_ok`: a list whose members all succeed
* `Except.bind_ne_error`, `Except.mapM_ne_error`: errors that do not occur
-/

namespace AssetBridge

namespace Except

variable {ε ε' α β : Type}

theorem toOption_bind (x : Except ε α) (f : α → Except ε β) :
    (x >>= f).toOption = x.toOption >>= fun a => (f a).toOption := by
  cases x <;> rfl

theorem toOption_map (f : α → β) (x : Except ε α) : (f <$> x).toOption = f <$> x.toOption := by
  cases x <;> rfl

theorem toOption_mapError (f : ε → ε') (x : Except ε α) :
    (x.mapError f).toOption = x.toOption := by
  cases x <;> rfl

theorem toOption_mapM (f : α → Except ε β) (l : List α) :
    (l.mapM f).toOption = l.mapM fun a => (f a).toOption := by
  induction l with
  | nil => rfl
  | cons a l ih =>
    rw [List.mapM_cons, List.mapM_cons, toOption_bind]
    congr 1
    funext b
    rw [toOption_bind, ih]
    rfl

theorem eq_ok_of_toOption {x : Except ε α} {a : α} (h : x.toOption = some a) : x = .ok a := by
  cases x with
  | error e => cases h
  | ok b => exact congrArg Except.ok (Option.some.inj h)

theorem eq_ok_of_mapError {x : Except ε α} {f : ε → ε'} {a : α} (h : x.mapError f = .ok a) :
    x = .ok a := by
  cases x with
  | error e => cases h
  | ok b => exact congrArg Except.ok (Except.ok.inj h)

theorem ok_bind (a : α) (f : α → Except ε β) : ((Except.ok a : Except ε α) >>= f) = f a := rfl

/-- A sequence that succeeds does so in both parts. -/
theorem exists_of_bind_eq_ok {x : Except ε α} {f : α → Except ε β} {b : β}
    (h : x >>= f = .ok b) : ∃ a, x = .ok a ∧ f a = .ok b := by
  cases x with
  | error e => cases h
  | ok a => exact ⟨a, rfl, h⟩

theorem exists_of_map_eq_ok {x : Except ε α} {f : α → β} {b : β} (h : f <$> x = .ok b) :
    ∃ a, x = .ok a ∧ f a = b := by
  cases x with
  | error e => cases h
  | ok a => exact ⟨a, rfl, Except.ok.inj h⟩

/-- A list whose members all succeed. -/
theorem mapM_eq_ok {f : α → Except ε β} {g : α → β} {l : List α} (h : ∀ a ∈ l, f a = .ok (g a)) :
    l.mapM f = .ok (l.map g) := by
  induction l with
  | nil => rfl
  | cons a l ih =>
    rw [List.mapM_cons, h a (by simp), ih fun b hb => h b (by simp [hb])]
    rfl

/-- The results of a list of steps, where it is known what each step can result in. -/
theorem eq_map_of_mapM_eq_ok {f : α → Except ε β} {g : α → β} {l : List α} {m : List β}
    (h : ∀ a ∈ l, ∀ b, f a = .ok b → b = g a) (hm : l.mapM f = .ok m) : m = l.map g := by
  induction l generalizing m with
  | nil => exact (Except.ok.inj hm).symm
  | cons a l ih =>
    rw [List.mapM_cons] at hm
    obtain ⟨b, hb, hm⟩ := exists_of_bind_eq_ok hm
    obtain ⟨bs, hbs, hm⟩ := exists_of_bind_eq_ok hm
    rw [← Except.ok.inj hm, h a List.mem_cons_self b hb,
      ih (fun c hc => h c (List.mem_cons_of_mem a hc)) hbs, List.map_cons]

/-- A list that succeeds has a result for each of its members. -/
theorem exists_mem_of_mapM_eq_ok {f : α → Except ε β} {l : List α} {m : List β}
    (h : l.mapM f = .ok m) : ∀ a ∈ l, ∃ b ∈ m, f a = .ok b := by
  induction l generalizing m with
  | nil => simp
  | cons a l ih =>
    rw [List.mapM_cons] at h
    obtain ⟨b, hb, h⟩ := exists_of_bind_eq_ok h
    obtain ⟨m', hm, h⟩ := exists_of_bind_eq_ok h
    obtain rfl := Except.ok.inj h
    intro c hc
    rcases List.mem_cons.1 hc with rfl | hc
    · exact ⟨b, List.mem_cons_self, hb⟩
    · obtain ⟨d, hd, hf⟩ := ih hm c hc
      exact ⟨d, List.mem_cons_of_mem b hd, hf⟩

/-! ## Errors that do not occur -/

section Errors

variable {e : ε}

/-- A sequence has no error that its parts do not have. -/
theorem bind_ne_error {x : Except ε α} {f : α → Except ε β} (hx : x ≠ .error e)
    (hf : ∀ a, x = .ok a → f a ≠ .error e) : x >>= f ≠ .error e := by
  cases x with
  | error e' => exact fun h => hx (congrArg Except.error (Except.error.inj h))
  | ok a => exact hf a rfl

theorem mapM_ne_error {f : α → Except ε β} {l : List α} (h : ∀ a ∈ l, f a ≠ .error e) :
    l.mapM f ≠ .error e := by
  induction l with
  | nil => exact fun h => nomatch h
  | cons a l ih =>
    rw [List.mapM_cons]
    refine bind_ne_error (h a List.mem_cons_self) fun b _ => ?_
    refine bind_ne_error (ih fun c hc => h c (List.mem_cons_of_mem a hc)) fun m _ => ?_
    exact fun h => nomatch h

theorem foldlM_ne_error {f : β → α → Except ε β} (h : ∀ b a, f b a ≠ .error e) (l : List α)
    (b : β) : l.foldlM f b ≠ .error e := by
  induction l generalizing b with
  | nil => exact fun h => nomatch h
  | cons a l ih =>
    rw [List.foldlM_cons]
    exact bind_ne_error (h b a) fun c _ => ih c

end Errors

end Except

end AssetBridge
