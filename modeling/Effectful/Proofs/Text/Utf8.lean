import Effectful.Text.Utf8
import Mathlib.Tactic.SplitIfs
/-!
# Decoding undoes encoding

A character is encoded by a first byte, which tells how many follow it, and by the bytes that follow, which carry
six bits each. The first byte leaves the decoder in a state that suits the character, and each byte after it
leads to such a state again; the bits that are gathered after the last of them are the character.
-/
namespace Effectful.Text.Utf8

/-- A number without its lowest bits, in groups of six. -/
def upper (v : Nat) : Nat → Nat
  | 0 => v
  | k + 1 => upper v k / 64

/-- The byte that carries the six lowest bits of a number. -/
def follow (v : Nat) : UInt8 := UInt8.ofNat (v % 64 + 0x80)

/-- The bytes that carry the lowest groups of a number, the highest one first. -/
def follows (v : Nat) : Nat → List UInt8
  | 0 => []
  | k + 1 => follow (upper v k) :: follows v k

@[simp] theorem toNat_follow (v : Nat) : (follow v).toNat = v % 64 + 0x80 := by
  have hlt : v % 64 + 0x80 < 256 := by omega
  simpa [follow] using Nat.mod_eq_of_lt hlt

theorem le_toNat_of_mem_follows {v k : Nat} {b : UInt8} (h : b ∈ follows v k) : 0x80 ≤ b.toNat := by
  induction k with
  | zero => cases h
  | succ k ih =>
    rcases List.mem_cons.mp h with rfl | h
    · rw [toNat_follow]
      omega
    · exact ih h

/-- The decoder has gathered what is above the lowest `k + 1` groups of a number, and the byte of the next one is in
its range. -/
structure Pending.Suits (p : Pending) (v k : Nat) : Prop where
  missing : p.missing = k + 1
  bits : p.bits = upper v (k + 1)
  low : p.low ≤ upper v k % 64 + 0x80
  high : upper v k % 64 + 0x80 ≤ p.high

theorem Pending.Suits.decodeFrom_follows {p : Pending} {v k : Nat} (h : p.Suits v k) (rest : List UInt8) :
    decodeFrom (some p) (follows v (k + 1) ++ rest) = Char.ofNat v :: decodeFrom none rest := by
  have hgathered : ∀ k, 64 * upper v (k + 1) + upper v k % 64 = upper v k := fun k => Nat.div_add_mod _ 64
  have hlow (k : Nat) : (upper v k % 64 + 0x80) % 64 = upper v k % 64 := by omega
  -- A byte moves one group from what is to come to what is gathered; after it any byte that follows is in range.
  induction k generalizing p with
  | zero =>
    simp only [follows,List.cons_append,List.nil_append,decodeFrom,toNat_follow]
    rw [if_pos ⟨h.low,h.high⟩,if_pos (Nat.le_of_eq h.missing),h.bits,hlow,hgathered]
    rfl
  | succ k ih =>
    have hmissing : ¬p.missing ≤ 1 := by
      rw [h.missing]
      omega
    rw [follows,List.cons_append,decodeFrom]
    simp only [toNat_follow]
    rw [if_pos ⟨h.low,h.high⟩,if_neg hmissing,h.bits,hlow,hgathered]
    refine ih ⟨?_,rfl,?_,?_⟩
    · exact congrArg (· - 1) h.missing
    · exact Nat.le_add_left _ _
    · change _ ≤ 0xbf
      omega

private theorem lead_two {v : Nat} (h : 0x7f < v) (h' : v ≤ 0x7ff) :
    ∃ p, lead (v / 64 % 32 + 0xc0) = .inr p ∧ p.Suits v 0 := by
  unfold lead
  rw [if_neg (by omega),if_pos (by omega)]
  refine ⟨_,rfl,rfl,?_,?_,?_⟩ <;> simp only [upper] <;> omega

private theorem lead_three {v : Nat} (h : 0x7ff < v) (h' : v ≤ 0xffff) (hvalid : v < 0xd800 ∨ 0xdfff < v) :
    ∃ p, lead (v / 4096 % 16 + 0xe0) = .inr p ∧ p.Suits v 1 := by
  unfold lead
  split_ifs <;> first
    | omega
    | (refine ⟨_,rfl,rfl,?_,?_,?_⟩ <;> simp only [upper] <;> omega)

private theorem lead_four {v : Nat} (h : 0xffff < v) (h' : v < 0x110000) :
    ∃ p, lead (v / 262144 % 8 + 0xf0) = .inr p ∧ p.Suits v 2 := by
  unfold lead
  split_ifs <;> first
    | omega
    | (refine ⟨_,rfl,rfl,?_,?_,?_⟩ <;> simp only [upper] <;> omega)

theorem utf8EncodeChar_cases (c : Char) :
    (∃ b : UInt8, String.utf8EncodeChar c = [b] ∧ b.toNat = c.toNat ∧ c.toNat < 0x80) ∨
      ∃ (b : UInt8) (k : Nat) (p : Pending), String.utf8EncodeChar c = b :: follows c.toNat (k + 1) ∧
        lead b.toNat = .inr p ∧ p.Suits c.toNat k ∧ 0x80 ≤ b.toNat ∧ 0x80 ≤ c.toNat := by
  have hvalid : c.toNat < 0xd800 ∨ 0xdfff < c.toNat ∧ c.toNat < 0x110000 := c.valid
  have hbyte : ∀ n < 256, (UInt8.ofNat n).toNat = n := fun n hn => by simpa using hn
  have hdiv : ∀ v, v / 4096 = v / 64 / 64 := fun v => (Nat.div_div_eq_div_mul v 64 64).symm
  simp only [String.utf8EncodeChar,show c.val.toNat = c.toNat from rfl]
  generalize c.toNat = v at hvalid
  split_ifs with hone htwo hthree
  · exact .inl ⟨_,rfl,hbyte v (by omega),by omega⟩
  · obtain ⟨p,hlead,hsuits⟩ := lead_two (by omega) htwo
    refine .inr ⟨_,0,p,rfl,?_,hsuits,?_,by omega⟩ <;> rw [hbyte _ (by omega)]
    · exact hlead
    · omega
  · obtain ⟨p,hlead,hsuits⟩ := lead_three (by omega) hthree (by omega)
    refine .inr ⟨_,1,p,rfl,?_,hsuits,?_,by omega⟩ <;> rw [hbyte _ (by omega)]
    · exact hlead
    · omega
  · obtain ⟨p,hlead,hsuits⟩ := lead_four (v := v) (by omega) (by omega)
    refine .inr ⟨_,2,p,by rw [hdiv]; rfl,?_,hsuits,?_,by omega⟩ <;> rw [hbyte _ (by omega)]
    · exact hlead
    · omega

theorem decodeFrom_utf8EncodeChar (c : Char) (rest : List UInt8) :
    decodeFrom none (String.utf8EncodeChar c ++ rest) = c :: decodeFrom none rest := by
  rcases utf8EncodeChar_cases c with ⟨b,hbytes,hb,hascii⟩ | ⟨b,k,p,hbytes,hlead,hsuits,-⟩
  · rw [hbytes,List.cons_append,List.nil_append,decodeFrom,hb,lead,if_pos hascii,Char.ofNat_toNat]
  · rw [hbytes,List.cons_append,decodeFrom,hlead]
    change decodeFrom (some p) _ = _
    rw [hsuits.decodeFrom_follows,Char.ofNat_toNat]

theorem mem_utf8EncodeChar_iff {c : Char} {b : UInt8} (hb : b.toNat < 0x80) :
    b ∈ String.utf8EncodeChar c ↔ c.toNat = b.toNat := by
  rcases utf8EncodeChar_cases c with ⟨b',hbytes,hb',-⟩ | ⟨b',k,p,hbytes,-,-,hb',hc⟩
  · rw [hbytes,List.mem_singleton,← UInt8.toNat_inj,hb',eq_comm]
  · have hnotMem : b ∉ String.utf8EncodeChar c := by
      rw [hbytes]
      intro hmem
      rcases List.mem_cons.mp hmem with rfl | hmem
      · omega
      · have hfollow := le_toNat_of_mem_follows hmem
        omega
    exact iff_of_false hnotMem (by omega)

theorem encode_eq_flatMap (s : String) : encode s = s.toList.flatMap String.utf8EncodeChar := by
  rw [encode,String.toUTF8_eq_toByteArray,← String.utf8Encode_toList]
  simp [List.utf8Encode]

theorem decode_encode (s : String) : decode (encode s) = s := by
  have hchars : ∀ cs : List Char, decodeFrom none (cs.flatMap String.utf8EncodeChar) = cs := by
    intro cs
    induction cs with
    | nil => rfl
    | cons c cs ih => rw [List.flatMap_cons,decodeFrom_utf8EncodeChar,ih]
  rw [decode,encode_eq_flatMap,hchars,String.ofList_toList]

/-- A byte below the first that begins a sequence stands for itself, and not inside a sequence. -/
theorem mem_encode_iff (s : String) {b : UInt8} (hb : b.toNat < 0x80) :
    b ∈ encode s ↔ ∃ c ∈ s.toList, c.toNat = b.toNat := by
  simp only [encode_eq_flatMap,List.mem_flatMap,mem_utf8EncodeChar_iff hb]

end Effectful.Text.Utf8
