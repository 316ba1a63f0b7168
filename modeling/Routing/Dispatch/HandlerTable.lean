import Routing.Dispatch.ParamIndex
/-!
# Handler tables

A node that ends a route holds a handler table: for each method the handlers registered under
it, in registration order. A request method with no entry of its own is answered by the entry of
the method `ALL`, if there is one; the slot of an answer says which entry answered.
-/

namespace Routing

/-- The method whose handlers answer every method without an entry of its own. -/
def allMethods : String := "ALL"

/-- Which entry of a handler table answered. -/
inductive MethodSlot where
  /-- The entry of the request method itself. -/
  | exact
  /-- The `ALL` entry. -/
  | fallback
deriving Repr, DecidableEq, Inhabited

/-- A registered handler and the parameter index of its route. -/
structure Handler (α : Type) where
  value : α
  params : ParamIndex
deriving Repr

/-- The handlers of each method, the methods in order of first registration. -/
structure HandlerTable (α : Type) where
  entries : List (String × List (Handler α))
deriving Repr

namespace HandlerTable

variable {α : Type}

/-- The table without entries. -/
def empty : HandlerTable α := ⟨[]⟩

/-- The handlers registered under a method key (`HandlerTable::get`). -/
def get? (t : HandlerTable α) (key : String) : Option (List (Handler α)) :=
  t.entries.lookup key

/-- Appends a handler to a method's entry, keeping the earlier ones (`HandlerTable::push`). -/
def push (t : HandlerTable α) (method : String) (h : Handler α) : HandlerTable α :=
  match t.get? method with
  | some _ => ⟨t.entries.map fun e => if e.1 == method then (e.1, e.2 ++ [h]) else e⟩
  | none => ⟨t.entries ++ [(method, [h])]⟩

/-- The slot that answers a method: its own entry, else the `ALL` entry
(`HandlerTable::resolve`). -/
def resolve (t : HandlerTable α) (method : String) : Option MethodSlot :=
  match t.get? method with
  | some _ => some .exact
  | none => (t.get? allMethods).map fun _ => .fallback

/-- The handlers of a slot for a method. -/
def handlersAt (t : HandlerTable α) (method : String) : MethodSlot → Option (List (Handler α))
  | .exact => t.get? method
  | .fallback => t.get? allMethods

/-- The method keys, sorted (`HandlerTable::methods`). -/
def methods (t : HandlerTable α) : List String :=
  (t.entries.map (·.1)).mergeSort (fun a b => decide (a ≤ b))

/-- Updating the entry of `m` in place changes what `m` looks up by `f`. -/
theorem lookup_map_update (es : List (String × List (Handler α))) (m : String)
    (f : List (Handler α) → List (Handler α)) :
    (es.map fun e => if e.1 == m then (e.1, f e.2) else e).lookup m = (es.lookup m).map f := by
  induction es with
  | nil => rfl
  | cons e es ih =>
    obtain ⟨k, v⟩ := e
    by_cases hk : k = m
    · subst hk
      rw [List.map_cons, List.lookup_cons, List.lookup_cons]
      simp
    · have : (m == k) = false := by simp [Ne.symm hk]
      simp [List.lookup_cons, hk, this]
      simpa using ih

/-- A key added at the end is found when it was absent. -/
theorem lookup_append_absent (es : List (String × List (Handler α))) (m : String)
    (v : List (Handler α)) (h : es.lookup m = none) : (es ++ [(m, v)]).lookup m = some v := by
  induction es with
  | nil => simp
  | cons e es ih =>
    obtain ⟨k, w⟩ := e
    by_cases hk : m = k
    · subst hk
      rw [List.lookup_cons] at h
      simp at h
    · have hne : (m == k) = false := by simp [hk]
      rw [List.lookup_cons, hne] at h
      rw [List.cons_append, List.lookup_cons, hne]
      exact ih h

/-- Pushing a handler under a method appends it to that method's handlers. -/
theorem get?_push_self (t : HandlerTable α) (m : String) (h : Handler α) :
    (t.push m h).get? m = some ((t.get? m).getD [] ++ [h]) := by
  unfold push
  cases hm : t.get? m with
  | none =>
    simp only [get?] at hm ⊢
    rw [lookup_append_absent _ _ _ hm]; simp
  | some hs =>
    simp only [get?] at hm ⊢
    have key := lookup_map_update t.entries m (fun v => v ++ [h])
    rw [key, hm]; simp

/-- Updating the entry of `m` in place leaves every other key's lookup alone. -/
theorem lookup_map_update_of_ne (es : List (String × List (Handler α))) {m k : String}
    (f : List (Handler α) → List (Handler α)) (hk : k ≠ m) :
    (es.map fun e => if e.1 == m then (e.1, f e.2) else e).lookup k = es.lookup k := by
  induction es with
  | nil => rfl
  | cons e es ih =>
    obtain ⟨key, v⟩ := e
    rw [List.map_cons, List.lookup_cons, List.lookup_cons]
    by_cases hkey : key = m
    · subst hkey
      have hb : (k == key) = false := beq_eq_false_iff_ne.2 hk
      rw [if_pos (beq_self_eq_true key)]
      simp only [hb]
      exact ih
    · rw [if_neg (by simpa using hkey)]
      dsimp only
      by_cases hkk : k = key
      · subst hkk
        simp
      · have hb : (k == key) = false := beq_eq_false_iff_ne.2 hkk
        simp only [hb]
        exact ih

/-- Pushing a handler under a method leaves the other methods' handlers alone. -/
theorem get?_push_of_ne (t : HandlerTable α) {m k : String} (h : Handler α) (hk : k ≠ m) :
    (t.push m h).get? k = t.get? k := by
  unfold push
  cases t.get? m with
  | none =>
    have hb : (k == m) = false := beq_eq_false_iff_ne.2 hk
    simp only [get?]
    rw [List.lookup_append, List.lookup_cons, hb]
    cases t.entries.lookup k <;> rfl
  | some _ =>
    simp only [get?]
    exact lookup_map_update_of_ne t.entries (· ++ [h]) hk

end HandlerTable

end Routing
