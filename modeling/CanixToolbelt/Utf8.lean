import Mathlib.Data.List.Basic
import Mathlib.Algebra.Order.Group.Nat

/-! Texts as UTF-8 bytes: a byte below 128 stands for itself and for nothing else. -/
namespace CanixToolbelt
namespace Utf8

def encode (cs : List Char) : List UInt8 := cs.flatMap String.utf8EncodeChar

/-- The characters of at most so many bytes. -/
def decodeFrom : ℕ → List UInt8 → Option (List Char)
  | _, [] => some []
  | 0, _ => none
  | n+1, bytes => do
    let c ← bytes.toByteArray.utf8DecodeChar? 0
    let cs ← decodeFrom n (bytes.drop c.utf8Size)
    some (c::cs)

/-- `str::from_utf8`. -/
def decode (bytes : List UInt8) : Option (List Char) := decodeFrom bytes.length bytes

theorem encode_cons (c : Char) (cs : List Char) :
    encode (c::cs) = String.utf8EncodeChar c ++ encode cs := by
  simp [encode]

@[simp] theorem encode_append (cs ds : List Char) : encode (cs ++ ds) = encode cs ++ encode ds := by
  simp [encode]

theorem encodeChar_ne_nil (c : Char) : String.utf8EncodeChar c ≠ [] := by
  intro h
  have hlength := String.length_utf8EncodeChar c
  have hpos := c.utf8Size_pos
  rw [h,List.length_nil] at hlength
  omega

theorem decodeFrom_encode (cs : List Char) {n : ℕ} (h : (encode cs).length ≤ n) :
    decodeFrom n (encode cs) = some cs := by
  induction cs generalizing n with
  | nil => cases n <;> rfl
  | cons c cs ih =>
    have hlength := String.length_utf8EncodeChar c
    have hpos := c.utf8Size_pos
    rw [encode_cons,List.length_append,hlength] at h
    obtain ⟨n,rfl⟩ := Nat.exists_eq_add_of_le' (Nat.le_trans hpos (by omega : c.utf8Size ≤ n))
    obtain ⟨b,bs,hb⟩ := List.exists_cons_of_ne_nil (encodeChar_ne_nil c)
    have hchar : (String.utf8EncodeChar c ++ encode cs).toByteArray.utf8DecodeChar? 0 = some c := by
      rw [List.toByteArray_append]
      exact ByteArray.utf8DecodeChar?_utf8EncodeChar_append
    have hdrop : (String.utf8EncodeChar c ++ encode cs).drop c.utf8Size = encode cs := by
      rw [← hlength,List.drop_left]
    rw [encode_cons]
    rw [hb,List.cons_append] at hchar hdrop ⊢
    simp only [decodeFrom,hchar,Option.bind_eq_bind,Option.bind_some,hdrop]
    rw [ih (by omega)]
    rfl

theorem decode_encode (cs : List Char) : decode (encode cs) = some cs :=
  decodeFrom_encode cs le_rfl

theorem decodeFrom_some {n : ℕ} {bytes : List UInt8} {cs : List Char}
    (h : decodeFrom n bytes = some cs) : bytes = encode cs := by
  induction n generalizing bytes cs with
  | zero =>
    cases bytes with
    | nil =>
      obtain rfl := Option.some.inj h
      rfl
    | cons b bytes => cases h
  | succ n ih =>
    cases bytes with
    | nil =>
      obtain rfl := Option.some.inj h
      rfl
    | cons b bytes =>
      simp only [decodeFrom,Option.bind_eq_bind,Option.bind_eq_some_iff,Option.some.injEq] at h
      obtain ⟨c,hc,cs,hcs,rfl⟩ := h
      obtain ⟨rest,hrest⟩ := ByteArray.exists_of_utf8DecodeChar?_eq_some hc
      have hbytes : b::bytes = String.utf8EncodeChar c ++ rest.data.toList := by
        have hdata := congrArg (fun a => a.data.toList) hrest
        simpa using hdata
      have hdrop : (b::bytes).drop c.utf8Size = rest.data.toList := by
        rw [hbytes,← String.length_utf8EncodeChar,List.drop_left]
      rw [encode_cons,← ih hcs,hdrop,hbytes]

theorem decode_iff {bytes : List UInt8} {cs : List Char} :
    decode bytes = some cs ↔ bytes = encode cs :=
  ⟨decodeFrom_some,fun h => h ▸ decode_encode cs⟩

theorem or_ge {a b : UInt8} (h : 128 ≤ b.toNat) : 128 ≤ (a ||| b).toNat := by
  rw [UInt8.toNat_or]
  exact le_trans h Nat.right_le_or

/-- A byte below 128 is a whole character. -/
theorem ascii_of_mem {c : Char} {b : UInt8} (hb : b ∈ String.utf8EncodeChar c)
    (h : b.toNat < 128) : String.utf8EncodeChar c = [b] ∧ c.toNat = b.toNat := by
  rcases c.utf8Size_eq with hsize | hsize | hsize | hsize
  · have hone := String.utf8EncodeChar_eq_singleton hsize
    rw [hone] at hb ⊢
    obtain rfl := List.mem_singleton.mp hb
    have hval := Char.utf8Size_eq_one_iff.mp hsize
    refine ⟨rfl,?_⟩
    have hlt : c.toNat < 256 := lt_of_le_of_lt (UInt32.le_iff_toNat_le.mp hval) (by decide)
    rw [UInt32.toNat_toUInt8]
    exact (Nat.mod_eq_of_lt hlt).symm
  · rw [String.utf8EncodeChar_eq_cons_cons hsize] at hb
    simp only [List.mem_cons,List.not_mem_nil,or_false] at hb
    rcases hb with rfl | rfl <;> exact absurd h (not_lt.mpr (or_ge (by decide)))
  · rw [String.utf8EncodeChar_eq_cons_cons_cons hsize] at hb
    simp only [List.mem_cons,List.not_mem_nil,or_false] at hb
    rcases hb with rfl | rfl | rfl <;> exact absurd h (not_lt.mpr (or_ge (by decide)))
  · rw [String.utf8EncodeChar_eq_cons_cons_cons_cons hsize] at hb
    simp only [List.mem_cons,List.not_mem_nil,or_false] at hb
    rcases hb with rfl | rfl | rfl | rfl <;> exact absurd h (not_lt.mpr (or_ge (by decide)))

/-- A text begins with the character that its first byte is. -/
theorem head_ascii {c : Char} {cs : List Char} {b : UInt8} (hb : b.toNat < 128)
    (h : ∀ x ∈ (encode (c::cs)).head?, x = b) : c = Char.ofNat b.toNat := by
  obtain ⟨x,xs,hx⟩ := List.exists_cons_of_ne_nil (encodeChar_ne_nil c)
  rw [encode_cons,hx] at h
  obtain rfl := h x rfl
  have hone := ascii_of_mem (c := c) (b := x) (by rw [hx]; simp) hb
  rw [← hone.2,Char.ofNat_toNat]

theorem mem_encode_ascii {cs : List Char} {b : UInt8} (hb : b ∈ encode cs) (h : b.toNat < 128) :
    Char.ofNat b.toNat ∈ cs := by
  obtain ⟨c,hc,hin⟩ := List.mem_flatMap.mp hb
  rw [← (ascii_of_mem hin h).2,Char.ofNat_toNat]
  exact hc

/-- Behind an encoded text, the bytes decode to the rest. -/
theorem encode_append_left {t a : List Char} {b : List UInt8} (h : encode t = encode a ++ b) :
    ∃ t', t = a ++ t' ∧ b = encode t' := by
  induction a generalizing t with
  | nil => exact ⟨t,rfl,h.symm⟩
  | cons c a ih =>
    rw [encode_cons,List.append_assoc] at h
    cases t with
    | nil => exact absurd (List.append_eq_nil_iff.mp h.symm).1 (encodeChar_ne_nil c)
    | cons d t =>
      rw [encode_cons] at h
      have hd := ByteArray.utf8DecodeChar?_utf8EncodeChar_append (b := (encode t).toByteArray) (c := d)
      have hc := ByteArray.utf8DecodeChar?_utf8EncodeChar_append
        (b := (encode a ++ b).toByteArray) (c := c)
      rw [← List.toByteArray_append] at hd hc
      rw [h,hc] at hd
      obtain rfl := Option.some.inj hd
      obtain ⟨t',rfl,hb⟩ := ih (List.append_cancel_left h)
      exact ⟨t',rfl,hb⟩

theorem encode_inj {a b : List Char} (h : encode a = encode b) : a = b :=
  Option.some.inj ((decode_encode a).symm.trans (h ▸ decode_encode b))

/-- Bytes are cut at one below 128 as their text is. -/
theorem encode_split {t : List Char} {v rest : List UInt8} {b : UInt8} (hb : b.toNat < 128)
    (h : encode t = v ++ b :: rest) :
    ∃ t₁ t₂, t = t₁ ++ Char.ofNat b.toNat :: t₂ ∧ v = encode t₁ ∧ rest = encode t₂ := by
  induction t generalizing v with
  | nil => exact absurd (congrArg List.length h) (by simp [encode])
  | cons c t ih =>
    rw [encode_cons] at h
    rcases List.append_eq_append_iff.mp h with ⟨v',rfl,hrest⟩ | ⟨w,hw,hrest⟩
    · obtain ⟨t₁,t₂,rfl,rfl,hright⟩ := ih hrest
      exact ⟨c::t₁,t₂,rfl,(encode_cons c t₁).symm,hright⟩
    · cases w with
      | nil =>
        rw [List.append_nil] at hw
        obtain ⟨t₁,t₂,rfl,hleft,hright⟩ := ih (v := []) hrest.symm
        refine ⟨c::t₁,t₂,rfl,?_,hright⟩
        rw [encode_cons,← hleft,hw,List.append_nil]
      | cons b' w =>
        obtain ⟨rfl,hrest⟩ := List.cons.inj hrest
        have hone := ascii_of_mem (c := c) (b := b) (by rw [hw]; simp) hb
        rw [hone.1] at hw
        cases v with
        | nil =>
          obtain rfl : w = [] := by simpa using hw.symm
          have hright : rest = encode t := by simpa [hone.1] using hrest
          refine ⟨[],t,?_,rfl,hright⟩
          rw [← hone.2,Char.ofNat_toNat]
          rfl
        | cons b'' v =>
          have hlength := congrArg List.length hw
          simp at hlength

end Utf8
end CanixToolbelt
