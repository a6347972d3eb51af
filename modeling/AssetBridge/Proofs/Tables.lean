import AssetBridge.Table

/-!
# Tables that are written entry by entry

When entries are written into a table one after the other, the last value of a key counts, and the
keys stand in the order in which they were first written. A table in which no key stands twice is
what its own entries leave.

## Main results

* `get?_insertAll`: the last value of a key counts
* `keys_insertAll`: new keys go to the end, in the order of their first entries
* `ofList_eq_self`: a table is what its entries leave
* `insertAll_insertAll`: what is written into a table may be written with it or after it
-/

namespace AssetBridge.Table

variable {α : Type} {key : Text} {value : α} {t : Table α} {entries : List (Text × α)}

theorem mem_insert {e : Text × α} (h : e ∈ t.insert key value) : e = (key, value) ∨ e ∈ t := by
  induction t with
  | nil => exact .inl (List.mem_singleton.1 h)
  | cons d t ih =>
    obtain ⟨k, v⟩ := d
    rw [insert] at h
    split at h
    · exact (List.mem_cons.1 h).imp_right (List.mem_cons_of_mem _)
    · rcases List.mem_cons.1 h with rfl | h
      · exact .inr List.mem_cons_self
      · exact (ih h).imp_right (List.mem_cons_of_mem _)

/-- Writing an entry repeats no key. -/
theorem nodup_keys_insert (h : t.keys.Nodup) : (t.insert key value).keys.Nodup := by
  rw [keys_insert]
  split
  · exact h
  · rename_i hk
    rw [List.nodup_append]
    refine ⟨h, by simp, ?_⟩
    rintro a ha b hb rfl
    exact hk (List.mem_singleton.1 hb ▸ ha)

/-- A new entry goes to the end. -/
theorem insert_of_not_mem (h : key ∉ t.keys) : t.insert key value = t ++ [(key, value)] := by
  induction t with
  | nil => rfl
  | cons d t ih =>
    obtain ⟨k, v⟩ := d
    have hk : k ≠ key := fun e => h (e ▸ List.mem_cons_self)
    have ht : key ∉ keys t := fun hm => h (List.mem_cons_of_mem k hm)
    rw [insert, if_neg hk, ih ht]
    rfl

/-- The last of two values that are written to a key counts. -/
theorem insert_insert (key : Text) (value value' : α) (t : Table α) :
    (t.insert key value).insert key value' = t.insert key value' := by
  induction t with
  | nil => simp [insert]
  | cons d t ih =>
    obtain ⟨k, v⟩ := d
    by_cases hk : k = key
    · simp [insert, hk]
    · simp [insert, hk, ih]

/-- A key that stands in the table already may be written before another key or behind it. -/
theorem insert_comm {key' : Text} (value' : α) (h : key ∈ t.keys) (hne : key' ≠ key) :
    (t.insert key' value').insert key value = (t.insert key value).insert key' value' := by
  induction t with
  | nil => cases h
  | cons d t ih =>
    obtain ⟨k, v⟩ := d
    by_cases hk : k = key
    · have hk' : ¬ key = key' := fun e => hne e.symm
      subst hk
      simp [insert, hk']
    · have ht : key ∈ keys t := (List.mem_cons.1 h).resolve_left fun e => hk e.symm
      by_cases hk' : k = key'
      · subst hk'
        simp [insert, hne]
      · simp [insert, hk, hk', ih ht]

/-- It may also be written before a table without it or behind it. -/
theorem insertAll_insert_of_mem (h : key ∈ t.keys) (he : key ∉ keys entries) :
    (t.insertAll entries).insert key value = (t.insert key value).insertAll entries := by
  induction entries generalizing t with
  | nil => rfl
  | cons e entries ih =>
    obtain ⟨k, v⟩ := e
    have hk : k ≠ key := fun e => he (e ▸ List.mem_cons_self)
    have hrest : key ∉ keys entries := fun hm => he (List.mem_cons_of_mem k hm)
    have hstep := ih (t := t.insert k v) (mem_keys_insert.2 (.inl h)) hrest
    rw [insert_comm v h hk] at hstep
    exact hstep

/-- Writing a table with one more entry is writing the table and then the entry. -/
theorem insertAll_insert (h : (keys entries).Nodup) :
    t.insertAll (insert key value entries) = (t.insertAll entries).insert key value := by
  induction entries generalizing t with
  | nil => rfl
  | cons e entries ih =>
    obtain ⟨k, v⟩ := e
    obtain ⟨hk, hrest⟩ := List.nodup_cons.1 h
    by_cases he : k = key
    · -- The entry of the key is replaced where it stands.
      subst he
      have hpresent : k ∈ (t.insert k v).keys := mem_keys_insert.2 (.inr rfl)
      have hmove : ((t.insert k v).insertAll entries).insert k value =
          ((t.insert k v).insert k value).insertAll entries := insertAll_insert_of_mem hpresent hk
      rw [insert_insert] at hmove
      rw [insert, if_pos rfl]
      exact hmove.symm
    · rw [insert, if_neg he]
      exact ih (t := t.insert k v) hrest

/-- New entries go to the end as they stand when none of their keys is repeated. -/
theorem insertAll_eq_append (h : (t ++ entries).keys.Nodup) :
    t.insertAll entries = t ++ entries := by
  induction entries generalizing t with
  | nil => exact (List.append_nil t).symm
  | cons e entries ih =>
    obtain ⟨k, v⟩ := e
    have hsplit : t ++ (k, v) :: entries = t ++ [(k, v)] ++ entries := by simp
    have hk : k ∉ t.keys := by
      intro hm
      rw [keys, List.map_append, List.nodup_append] at h
      exact h.2.2 k hm k List.mem_cons_self rfl
    show (t.insert k v).insertAll entries = _
    rw [hsplit] at h ⊢
    rw [insert_of_not_mem hk, ih h]

/-- **A table is what its entries leave** when they are written in turn. -/
theorem ofList_eq_self (h : t.keys.Nodup) : ofList t = t := insertAll_eq_append (t := []) h

theorem nodup_keys_insertAll (h : t.keys.Nodup) : (t.insertAll entries).keys.Nodup := by
  induction entries generalizing t with
  | nil => exact h
  | cons e entries ih => exact ih (nodup_keys_insert h)

theorem mem_insertAll {e : Text × α} (h : e ∈ t.insertAll entries) : e ∈ t ∨ e ∈ entries := by
  induction entries generalizing t with
  | nil => exact .inl h
  | cons d entries ih =>
    rcases ih (t := t.insert d.1 d.2) h with h | h
    · rcases mem_insert h with rfl | h
      · exact .inr List.mem_cons_self
      · exact .inl h
    · exact .inr (List.mem_cons_of_mem d h)

theorem get?_append (key : Text) (s t : Table α) :
    get? key (s ++ t) = (get? key s).or (get? key t) := by
  induction s with
  | nil => rfl
  | cons e s ih =>
    obtain ⟨k, v⟩ := e
    rw [List.cons_append, get?, get?, ih]
    split <;> rfl

/-- A value stands in an entry with its key. -/
theorem mem_of_get?_eq_some (h : t.get? key = some value) : (key, value) ∈ t := by
  induction t with
  | nil => cases h
  | cons e t ih =>
    obtain ⟨k, v⟩ := e
    rw [get?] at h
    split at h
    · rename_i hk
      obtain rfl := Option.some.inj h
      exact hk ▸ List.mem_cons_self
    · exact List.mem_cons_of_mem _ (ih h)

theorem mem_keys_of_get?_eq_some (h : t.get? key = some value) : key ∈ t.keys :=
  List.mem_map_of_mem (mem_of_get?_eq_some h)

/-- The keys are the texts that have a value. -/
theorem get?_eq_none_iff : t.get? key = none ↔ key ∉ t.keys := by
  constructor
  · intro h hm
    induction t with
    | nil => cases hm
    | cons e t ih =>
      obtain ⟨k, v⟩ := e
      rw [get?] at h
      split at h
      · cases h
      · rename_i hk
        exact ih h ((List.mem_cons.1 hm).resolve_left fun e => hk e.symm)
  · intro h
    cases hget : t.get? key with
    | none => rfl
    | some value => exact absurd (mem_keys_of_get?_eq_some hget) h

/-- **The last value of a key counts**, and a key that is not written keeps the one it has. -/
theorem get?_insertAll (t : Table α) (entries : List (Text × α)) (key : Text) :
    (t.insertAll entries).get? key = (get? key entries.reverse).or (t.get? key) := by
  induction entries generalizing t with
  | nil => rfl
  | cons e entries ih =>
    obtain ⟨k, v⟩ := e
    show ((t.insert k v).insertAll entries).get? key = _
    rw [ih, get?_insert, List.reverse_cons, get?_append, Option.or_assoc]
    congr 1
    rw [get?]
    split <;> rfl

/-- **New keys go to the end**, in the order in which they are first written; the others stay where
they are. -/
theorem keys_insertAll (t : Table α) (entries : List (Text × α)) : (t.insertAll entries).keys =
    t.keys ++ ((keys entries).filter (· ∉ t.keys)).eraseDups := by
  induction entries generalizing t with
  | nil => exact (List.append_nil _).symm
  | cons e entries ih =>
    obtain ⟨k, v⟩ := e
    show ((t.insert k v).insertAll entries).keys =
      t.keys ++ ((k :: keys entries).filter _).eraseDups
    rw [ih, keys_insert]
    by_cases hk : k ∈ t.keys
    · rw [if_pos hk, List.filter_cons_of_neg (by simpa using hk)]
    · -- The key is written first here, so later entries with it add nothing.
      rw [if_neg hk, List.filter_cons_of_pos (by simpa using hk), List.eraseDups_cons,
        List.filter_filter, List.append_assoc, List.singleton_append]
      congr 3
      refine List.filter_congr fun k' _ => Bool.eq_iff_iff.2 ?_
      simp [and_comm]

/-- **Writing what entries make of a table** is writing the table and then the entries. -/
theorem insertAll_insertAll {s : Table α} (hs : s.keys.Nodup) (t : Table α)
    (entries : List (Text × α)) :
    t.insertAll (s.insertAll entries) = (t.insertAll s).insertAll entries := by
  induction entries generalizing s with
  | nil => rfl
  | cons e entries ih =>
    obtain ⟨k, v⟩ := e
    show t.insertAll ((s.insert k v).insertAll entries) = _
    rw [ih (nodup_keys_insert hs), insertAll_insert hs]
    rfl

/-- What entries leave has their keys, in the order in which they are first written. -/
theorem keys_ofList (entries : List (Text × α)) :
    (ofList entries).keys = (keys entries).eraseDups := by
  have hnew : (keys entries).filter (· ∉ keys ([] : Table α)) = keys entries :=
    List.filter_eq_self.2 fun key _ => decide_eq_true List.not_mem_nil
  rw [ofList, keys_insertAll, hnew]
  rfl

/-- A key has the last value that is written to it. -/
theorem get?_ofList (entries : List (Text × α)) (key : Text) :
    (ofList entries).get? key = get? key entries.reverse := by
  rw [ofList, get?_insertAll]
  exact Option.or_none

/-- The value of a key among entries is the first one that is found under it. -/
theorem get?_map {β : Type} (f : β → Text) (g : β → α) (key : Text) (l : List β) :
    get? key (l.map fun b => (f b, g b)) = (l.find? fun b => f b = key).map g := by
  induction l with
  | nil => rfl
  | cons b l ih =>
    rw [List.map_cons, get?, List.find?_cons]
    by_cases hb : f b = key
    · simp [hb]
    · simp [hb, ih]

/-- A table whose values are mapped has the mapped value of a key. -/
theorem get?_map_values {β : Type} (g : β → α) (key : Text) (t : Table β) :
    get? key (t.map fun e => (e.1, g e.2)) = (t.get? key).map g := by
  have hself : t.get? key = (t.find? fun e => e.1 = key).map Prod.snd := by
    rw [← get?_map, List.map_id']
  rw [get?_map, hself, Option.map_map]
  rfl

end AssetBridge.Table
