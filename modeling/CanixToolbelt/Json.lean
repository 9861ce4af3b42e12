import Mathlib

/-! JSON values as the sources handle them: objects are key-sorted maps, reading a
missing key gives `null`, and assigning to a key of `null` makes an object of it. -/
namespace CanixToolbelt

/-- A JSON value.  A number with a fraction or an exponent is kept as its text. -/
inductive Json where
  | null
  | bool (b : Bool)
  | int (n : ℤ)
  | float (text : String)
  | str (s : String)
  | arr (items : List Json)
  | obj (fields : List (String × Json))
  deriving Repr, Inhabited

namespace Json

mutual
def decEq : (a b : Json) → Decidable (a = b)
  | .null, .null => isTrue rfl
  | .bool a, .bool b => decidable_of_iff (a = b) (by simp)
  | .int a, .int b => decidable_of_iff (a = b) (by simp)
  | .float a, .float b => decidable_of_iff (a = b) (by simp)
  | .str a, .str b => decidable_of_iff (a = b) (by simp)
  | .arr a, .arr b => @decidable_of_iff _ (a = b) (by simp) (decEqItems a b)
  | .obj a, .obj b => @decidable_of_iff _ (a = b) (by simp) (decEqFields a b)
  | .null, .bool _ | .null, .int _ | .null, .float _ | .null, .str _ | .null, .arr _
  | .null, .obj _ | .bool _, .null | .bool _, .int _ | .bool _, .float _ | .bool _, .str _
  | .bool _, .arr _ | .bool _, .obj _ | .int _, .null | .int _, .bool _ | .int _, .float _
  | .int _, .str _ | .int _, .arr _ | .int _, .obj _ | .float _, .null | .float _, .bool _
  | .float _, .int _ | .float _, .str _ | .float _, .arr _ | .float _, .obj _ | .str _, .null
  | .str _, .bool _ | .str _, .int _ | .str _, .float _ | .str _, .arr _ | .str _, .obj _
  | .arr _, .null | .arr _, .bool _ | .arr _, .int _ | .arr _, .float _ | .arr _, .str _
  | .arr _, .obj _ | .obj _, .null | .obj _, .bool _ | .obj _, .int _ | .obj _, .float _
  | .obj _, .str _ | .obj _, .arr _ => isFalse (by simp)
def decEqItems : (a b : List Json) → Decidable (a = b)
  | [], [] => isTrue rfl
  | [], _::_ => isFalse (by simp)
  | _::_, [] => isFalse (by simp)
  | a::as, b::bs =>
    have := decEq a b
    have := decEqItems as bs
    decidable_of_iff (a = b ∧ as = bs) (by simp)
def decEqFields : (a b : List (String × Json)) → Decidable (a = b)
  | [], [] => isTrue rfl
  | [], _::_ => isFalse (by simp)
  | _::_, [] => isFalse (by simp)
  | (k,a)::as, (l,b)::bs =>
    have := decEq a b
    have := decEqFields as bs
    decidable_of_iff ((k = l ∧ a = b) ∧ as = bs) (by simp)
end

instance : DecidableEq Json := decEq

/-- Ordered insertion into the fields of an object, replacing an equal key. -/
def insertField (k : String) (v : Json) : List (String × Json) → List (String × Json)
  | [] => [(k,v)]
  | (k',v')::fs =>
    if k = k' then (k,v)::fs
    else if k < k' then (k,v)::(k',v')::fs
    else (k',v')::insertField k v fs

/-- `Value::get`. -/
def get? (v : Json) (k : String) : Option Json :=
  match v with
  | .obj fs => fs.lookup k
  | _ => none

/-- `value[key]`: a missing key reads as `null`. -/
def get (v : Json) (k : String) : Json := (v.get? k).getD .null

/-- `value[key] = x`.  The source panics on a value that is neither `null` nor an
object; the journals it assigns to never are. -/
def set (v : Json) (k : String) (x : Json) : Json :=
  match v with
  | .null => .obj [(k,x)]
  | .obj fs => .obj (insertField k x fs)
  | v => v

def remove (v : Json) (k : String) : Json :=
  match v with
  | .obj fs => .obj (fs.filter fun f => f.1 ≠ k)
  | v => v

def isNull : Json → Bool
  | .null => true
  | _ => false
def isString : Json → Bool
  | .str _ => true
  | _ => false
def isObject : Json → Bool
  | .obj _ => true
  | _ => false
def isArray : Json → Bool
  | .arr _ => true
  | _ => false
def isBoolean : Json → Bool
  | .bool _ => true
  | _ => false

def asStr : Json → Option String
  | .str s => some s
  | _ => none
def asArray : Json → Option (List Json)
  | .arr xs => some xs
  | _ => none
def asObject : Json → Option (List (String × Json))
  | .obj fs => some fs
  | _ => none

/-- `as_u64`: an integer of the range 0 to 2^64-1. -/
def asU64 : Json → Option ℕ
  | .int (.ofNat n) => if n < 2^64 then some n else none
  | _ => none
/-- `as_i64`: an integer of the range -2^63 to 2^63-1. -/
def asI64 : Json → Option ℤ
  | .int n => if -2^63 ≤ n ∧ n < 2^63 then some n else none
  | _ => none

/-- The items of an array, none for any other value. -/
def items (v : Json) : List Json := v.asArray.getD []

def nat (n : ℕ) : Json := .int n

/-- An object literal, keys in any order. -/
def object (fields : List (String × Json)) : Json :=
  .obj (fields.foldl (fun fs f => insertField f.1 f.2 fs) [])

theorem lookup_insertField (k k' : String) (v : Json) (fs : List (String × Json)) :
    (insertField k v fs).lookup k' = if k' = k then some v else fs.lookup k' := by
  induction fs with
  | nil =>
    by_cases h : k' = k
    · simp [insertField,h]
    · simp [insertField,h,List.lookup,beq_eq_false_iff_ne.mpr h]
  | cons f fs ih =>
    obtain ⟨l,x⟩ := f
    simp only [insertField]
    split
    · rename_i h
      subst h
      by_cases h' : k' = k
      · simp [h']
      · simp [List.lookup,h',beq_eq_false_iff_ne.mpr h']
    · rename_i hne
      split
      · by_cases h' : k' = k
        · simp [h']
        · rw [List.lookup_cons,beq_eq_false_iff_ne.mpr h',if_neg h']
      · simp only [List.lookup_cons,ih]
        by_cases h' : k' = l
        · subst h'
          simp [Ne.symm hne]
        · simp [beq_eq_false_iff_ne.mpr h']

theorem lookup_object_none {fs : List (String × Json)} {k : String} (h : ∀ f ∈ fs, f.1 ≠ k) :
    (object fs).get? k = none := by
  have hfold : ∀ (gs : List (String × Json)) (acc : List (String × Json)), (∀ f ∈ gs, f.1 ≠ k) →
      acc.lookup k = none → (gs.foldl (fun acc f => insertField f.1 f.2 acc) acc).lookup k = none := by
    intro gs
    induction gs with
    | nil => exact fun acc _ h => h
    | cons g gs ih =>
      intro acc hgs hacc
      apply ih _ fun f hf => hgs f (by simp [hf])
      rw [lookup_insertField,if_neg (hgs g (by simp)).symm,hacc]
  exact hfold fs [] h rfl

theorem lookup_object {fs : List (String × Json)} {k : String} {x : Json} (hmem : (k,x) ∈ fs)
    (hfun : ∀ y, (k,y) ∈ fs → y = x) : (object fs).get? k = some x := by
  have hfold : ∀ (gs : List (String × Json)) (acc : List (String × Json)),
      (∀ y, (k,y) ∈ gs → y = x) → (acc.lookup k = some x ∨ (k,x) ∈ gs) →
      (gs.foldl (fun acc f => insertField f.1 f.2 acc) acc).lookup k = some x := by
    intro gs
    induction gs with
    | nil =>
      intro acc _ h
      exact h.resolve_right (by simp)
    | cons g gs ih =>
      intro acc hgs h
      obtain ⟨l,y⟩ := g
      refine ih _ (fun z hz => hgs z (by simp [hz])) ?_
      rw [lookup_insertField]
      by_cases hl : k = l
      · subst hl
        left
        rw [if_pos rfl,hgs y (by simp)]
      · rw [if_neg hl]
        exact h.imp id fun hmem => by simpa [hl] using hmem
  exact hfold fs [] hfun (.inr hmem)

theorem object_get {fs : List (String × Json)} {k : String} {x : Json} (hmem : (k,x) ∈ fs)
    (hfun : ∀ y, (k,y) ∈ fs → y = x) : (object fs).get k = x := by
  rw [Json.get,lookup_object hmem hfun,Option.getD_some]

theorem mem_keys_insertField {k l : String} {v : Json} {fs : List (String × Json)} :
    l ∈ (insertField k v fs).map Prod.fst ↔ l = k ∨ l ∈ fs.map Prod.fst := by
  induction fs with
  | nil => simp [insertField]
  | cons f fs ih =>
    obtain ⟨k',v'⟩ := f
    simp only [insertField]
    split
    · rename_i h
      simp [h]
    · split
      · simp
      · rw [List.map_cons,List.mem_cons,ih]
        simp only [List.map_cons,List.mem_cons]
        tauto

theorem keys_insertField (k : String) (v : Json) {fs : List (String × Json)}
    (h : (fs.map Prod.fst).Pairwise (· < ·)) :
    ((insertField k v fs).map Prod.fst).Pairwise (· < ·) := by
  induction fs with
  | nil => simp [insertField]
  | cons f fs ih =>
    obtain ⟨k',v'⟩ := f
    simp only [List.map_cons,List.pairwise_cons] at h
    simp only [insertField]
    split
    · rename_i hk
      simpa [hk] using h
    · rename_i hk
      split
      · rename_i hlt
        simp only [List.map_cons,List.pairwise_cons,List.mem_cons]
        refine ⟨fun l hl => ?_,h⟩
        rcases hl with rfl | hl
        · exact hlt
        · exact String.lt_trans hlt (h.1 l hl)
      · rename_i hlt
        simp only [List.map_cons,List.pairwise_cons]
        refine ⟨fun l hl => ?_,ih h.2⟩
        rcases mem_keys_insertField.mp hl with rfl | hl
        · by_contra hno
          exact hk (String.le_antisymm (String.not_lt.mp hno) (String.not_lt.mp hlt))
        · exact h.1 l hl

/-- An object literal has each of its keys once. -/
theorem object_keys (fs : List (String × Json)) : ∃ gs, object fs = .obj gs ∧
    (gs.map Prod.fst).Nodup ∧ ∀ k, k ∈ gs.map Prod.fst ↔ k ∈ fs.map Prod.fst := by
  have hfold : ∀ (gs acc : List (String × Json)), (acc.map Prod.fst).Pairwise (· < ·) →
      ((gs.foldl (fun acc f => insertField f.1 f.2 acc) acc).map Prod.fst).Pairwise (· < ·) ∧
        ∀ k, k ∈ (gs.foldl (fun acc f => insertField f.1 f.2 acc) acc).map Prod.fst ↔
          k ∈ acc.map Prod.fst ∨ k ∈ gs.map Prod.fst := by
    intro gs
    induction gs with
    | nil => exact fun acc h => ⟨h,by simp⟩
    | cons g gs ih =>
      intro acc h
      obtain ⟨hsorted,hmem⟩ := ih _ (keys_insertField g.1 g.2 h)
      refine ⟨hsorted,fun k => ?_⟩
      rw [List.foldl_cons,hmem,mem_keys_insertField,List.map_cons,List.mem_cons]
      tauto
  obtain ⟨hsorted,hmem⟩ := hfold fs [] List.Pairwise.nil
  exact ⟨_,rfl,hsorted.imp fun h => String.ne_of_lt h,fun k => by simpa using hmem k⟩

theorem isObject_object (fs : List (String × Json)) : (object fs).isObject = true := by
  obtain ⟨gs,hgs,-⟩ := object_keys fs
  rw [hgs]
  rfl

/-- `null` and objects are what may be assigned to. -/
def Assignable (v : Json) : Prop := v = .null ∨ v.isObject = true

@[simp] theorem assignable_null : Assignable .null := .inl rfl
@[simp] theorem assignable_obj (fs : List (String × Json)) : Assignable (.obj fs) := .inr rfl

theorem assignable_of_isObject {v : Json} (h : v.isObject = true) : v.Assignable := .inr h

theorem get?_set {v : Json} (h : v.Assignable) (k k' : String) (x : Json) :
    (v.set k x).get? k' = if k' = k then some x else v.get? k' := by
  cases v with
  | null => exact lookup_insertField k k' x []
  | obj fs => exact lookup_insertField k k' x fs
  | _ => rcases h with h | h <;> cases h

theorem get_set {v : Json} (h : v.Assignable) (k k' : String) (x : Json) :
    (v.set k x).get k' = if k' = k then x else v.get k' := by
  simp only [get,get?_set h]
  split <;> rfl

/-- Other keys keep their values whatever is assigned to. -/
theorem get?_set_ne (v : Json) {k k' : String} (x : Json) (h : k' ≠ k) :
    (v.set k x).get? k' = v.get? k' := by
  by_cases hv : v.Assignable
  · rw [get?_set hv,if_neg h]
  · cases v <;> simp_all [Assignable,set,isObject]

theorem get_set_ne (v : Json) {k k' : String} (x : Json) (h : k' ≠ k) :
    (v.set k x).get k' = v.get k' := by
  rw [get,get?_set_ne v x h]
  rfl

theorem lookup_filter_key {p : String → Bool} (fs : List (String × Json)) (k : String) :
    (fs.filter fun f => p f.1).lookup k = if p k then fs.lookup k else none := by
  induction fs with
  | nil => simp
  | cons f fs ih =>
    obtain ⟨l,x⟩ := f
    by_cases hl : k = l
    · subst hl
      by_cases hp : p k <;> simp [hp,ih]
    · by_cases hp : p l <;> simp [hp,ih,List.lookup_cons,beq_eq_false_iff_ne.mpr hl]

theorem get?_remove (v : Json) (k k' : String) :
    (v.remove k).get? k' = if k' = k then none else v.get? k' := by
  cases v with
  | obj fs =>
    have h := lookup_filter_key (p := fun l => l ≠ k) fs k'
    simp only [remove,get?] at h ⊢
    rw [h]
    by_cases hk : k' = k <;> simp [hk]
  | _ => simp [remove,get?]

@[simp] theorem isObject_set {v : Json} (h : v.Assignable) (k : String) (x : Json) :
    (v.set k x).isObject = true := by
  cases v <;> simp_all [Assignable,set,isObject]

theorem isObject_set_iff (v : Json) (k : String) (x : Json) :
    (v.set k x).isObject = true ↔ v.Assignable := by
  cases v <;> simp [Assignable,set,isObject]

@[simp] theorem get_null (k : String) : Json.null.get k = .null := rfl

theorem get_eq_null_of_not_isObject {v : Json} (h : v.isObject = false) (k : String) :
    v.get k = .null := by
  cases v <;> simp_all [isObject,get,get?]

/-! ## Assignments that change nothing -/

theorem insertField_twice (k : String) (v w : Json) (fs : List (String × Json)) :
    insertField k v (insertField k w fs) = insertField k v fs := by
  induction fs with
  | nil => simp [insertField]
  | cons f fs ih =>
    obtain ⟨l,x⟩ := f
    by_cases hk : k = l
    · simp [insertField,hk]
    · by_cases hlt : k < l
      · simp [insertField,hk,hlt]
      · simp [insertField,hk,hlt,ih]

/-- A field that an assignment would find as it is stays so while other keys are assigned to. -/
theorem insertField_still {k l : String} {v : Json} (w : Json) (hne : k ≠ l)
    {fs : List (String × Json)} (h : insertField k v fs = fs) :
    insertField k v (insertField l w fs) = insertField l w fs := by
  induction fs with
  | nil => cases h
  | cons f fs ih =>
    obtain ⟨k',x⟩ := f
    by_cases hk : k = k'
    · subst hk
      simp only [insertField,if_true,List.cons.injEq,and_true] at h
      obtain ⟨-,rfl⟩ := Prod.mk.inj h
      by_cases hlt : l < k
      · have hnot : ¬ k < l := String.lt_asymm hlt
        simp [insertField,hne,hne.symm,hlt,hnot]
      · simp [insertField,hne.symm,hlt]
    · by_cases hlt : k < k'
      · have hlength := congrArg List.length h
        simp [insertField,hk,hlt] at hlength
      · have htail : insertField k v fs = fs := by simpa [insertField,hk,hlt] using h
        by_cases hl : l = k'
        · subst hl
          simp [insertField,hk,hlt,htail]
        · by_cases hll : l < k'
          · have hnot : ¬ k < l := fun hkl => hlt (String.lt_trans hkl hll)
            simp [insertField,hl,hll,hk,hlt,hne,hnot,htail]
          · simp [insertField,hl,hll,hk,hlt,ih htail]

theorem set_twice (v : Json) (k : String) (x y : Json) : (v.set k x).set k y = v.set k y := by
  cases v with
  | null => simp [set,insertField]
  | obj fs => exact congrArg obj (insertField_twice k y x fs)
  | _ => rfl

theorem set_still {v : Json} {k l : String} {x : Json} (y : Json) (hne : k ≠ l)
    (h : v.set k x = v) : (v.set l y).set k x = v.set l y := by
  cases v with
  | null => cases h
  | obj fs => exact congrArg obj (insertField_still y hne (obj.inj h))
  | _ => rfl

theorem get?_of_still {v : Json} {k : String} {x : Json} (hv : v.isObject = true)
    (h : v.set k x = v) : v.get? k = some x := by
  rw [← h,get?_set (assignable_of_isObject hv),if_pos rfl]

theorem get_still {v : Json} {k : String} {x : Json} (hv : v.isObject = true) (h : v.set k x = v) :
    v.set k (v.get k) = v := by
  rw [Json.get,get?_of_still hv h]
  exact h

theorem remove_absent {v : Json} {k : String} (h : v.get? k = none) : v.remove k = v := by
  cases v with
  | obj fs =>
    refine congrArg obj (List.filter_eq_self.mpr fun f hf => ?_)
    have hne := List.lookup_eq_none_iff.mp h f hf
    exact decide_eq_true fun heq => by simp [heq] at hne
  | _ => rfl

/-- Assignments to these keys, one after the other. -/
inductive Writes (keys : List String) (v : Json) : Json → Prop
  | refl : Writes keys v v
  | set {w : Json} (k : String) (x : Json) (h : Writes keys v w) (hk : k ∈ keys) :
    Writes keys v (w.set k x)

namespace Writes
variable {keys : List String} {u v w : Json}

theorem trans (h : Writes keys u v) (h' : Writes keys v w) : Writes keys u w := by
  induction h' with
  | refl => exact h
  | set k x _ hk ih => exact ih.set k x hk

theorem mono {more : List String} (h : Writes keys v w) (hsub : keys ⊆ more) : Writes more v w := by
  induction h with
  | refl => exact .refl
  | set k x _ hk ih => exact ih.set k x (hsub hk)

theorem get? (h : Writes keys v w) {k : String} (hk : k ∉ keys) : w.get? k = v.get? k := by
  induction h with
  | refl => rfl
  | set l x _ hl ih =>
    have hne : k ≠ l := fun heq => hk (heq ▸ hl)
    rw [get?_set_ne _ _ hne]
    exact ih

/-- A field that would be found as it is, under another key, still would. -/
theorem still (h : Writes keys v w) {k : String} {x : Json} (hk : k ∉ keys) (hx : v.set k x = v) :
    w.set k x = w := by
  induction h with
  | refl => exact hx
  | set l y _ hl ih => exact set_still y (fun heq => hk (heq ▸ hl)) ih

theorem isObject (h : Writes keys v w) (hv : v.isObject = true) : w.isObject = true := by
  induction h with
  | refl => exact hv
  | set k x _ _ ih => exact isObject_set (assignable_of_isObject ih) k x

/-- Assignments add no other keys. -/
theorem fields (h : Writes keys v w) : ∀ f ∈ w.asObject.getD [],
    f.1 ∈ keys ∨ f.1 ∈ (v.asObject.getD []).map Prod.fst := by
  induction h with
  | refl => exact fun f hf => .inr (List.mem_map_of_mem hf)
  | @set u k x _ hk ih =>
    intro f hf
    have hmem : f.1 = k ∨ f.1 ∈ (u.asObject.getD []).map Prod.fst := by
      have hf := List.mem_map_of_mem (f := Prod.fst) hf
      cases u with
      | null => exact .inl (by simpa [Json.set,insertField,asObject] using hf)
      | obj fs => exact mem_keys_insertField.mp hf
      | _ => exact .inr hf
    rcases hmem with heq | hmem
    · exact .inl (heq ▸ hk)
    · obtain ⟨g,hg,heq⟩ := List.mem_map.mp hmem
      exact heq ▸ ih g hg

end Writes

end Json
end CanixToolbelt
