import LeftHand.Lower.Session

/-!
String constants as code shows them: what stands between the quotes stands for the bytes of the
constant.
-/

namespace LeftHand

open List

namespace Ir

/-- The value of a hexadecimal digit. -/
def hexValue? (c : Char) : Option Nat :=
  if '0' ≤ c ∧ c ≤ '9' then some (c.toNat - '0'.toNat)
  else if 'a' ≤ c ∧ c ≤ 'f' then some (c.toNat - 'a'.toNat + 10)
  else if 'A' ≤ c ∧ c ≤ 'F' then some (c.toNat - 'A'.toNat + 10)
  else none

/-- The byte of two hexadecimal digits. -/
def hexByte? (high low : Char) : Option UInt8 := do
  return UInt8.ofNat (16 * (← hexValue? high) + (← hexValue? low))

/-- The bytes that the characters between the quotes of a constant stand for. -/
def unescape : List Char → List UInt8
  | [] => []
  | '\\' :: '\\' :: rest => 0x5c :: unescape rest
  | '\\' :: high :: low :: rest =>
    match hexByte? high low with
    | some byte => byte :: unescape rest
    | none => 0x5c :: unescape (high :: low :: rest)
  | c :: rest => String.utf8EncodeChar c ++ unescape rest

example : unescape ['a', '\\', '5', 'C', '\\', '\\', '\\', 'x', '\\', '0', '0'] =
    [0x61, 0x5c, 0x5c, 0x5c, 0x78, 0x00] := by
  decide +kernel

/-- A byte is written as the character it is, which is no backslash, or by its digits. -/
theorem byteText_cases (byte : UInt8) :
    (∃ c, byteText byte = [c] ∧ c ≠ '\\' ∧ c ≠ '"' ∧ String.utf8EncodeChar c = [byte]) ∨
      ∃ high low, byteText byte = ['\\', high, low] ∧ high ≠ '\\' ∧ high ≠ '"' ∧ low ≠ '"' ∧
        hexByte? high low = some byte := by
  rw [byteText]
  split
  · rename_i plain
    simp only [Bool.and_eq_true, decide_eq_true_eq, bne_iff_ne] at plain
    obtain ⟨⟨⟨_, small⟩, noQuote⟩, noMark⟩ := plain
    have known : ∀ n < 0x7f, String.utf8EncodeChar (Char.ofNat n) = [UInt8.ofNat n] := by decide +kernel
    exact .inl ⟨_, rfl, noMark, noQuote, by rw [known byte.toNat small, UInt8.ofNat_toNat]⟩
  · have digit : ∀ n < 16, Nat.digitChar n ≠ '\\' ∧ Nat.digitChar n ≠ '"' ∧
        hexValue? (Nat.digitChar n) = some n := by decide +kernel
    have small := byte.toNat_lt
    obtain ⟨noMark, noQuote, high⟩ := digit (byte.toNat / 16) (by omega)
    obtain ⟨_, noQuote', low⟩ := digit (byte.toNat % 16) (by omega)
    refine .inr ⟨_, _, rfl, noMark, noQuote, noQuote', ?_⟩
    rw [hexByte?, high, low]
    exact congrArg some ((congrArg UInt8.ofNat (Nat.div_add_mod ..)).trans UInt8.ofNat_toNat)

theorem unescape_byteText (byte : UInt8) (rest : List Char) :
    unescape (byteText byte ++ rest) = byte :: unescape rest := by
  rcases byteText_cases byte with ⟨c, text, plain, _, encoded⟩ | ⟨high, low, text, plain, _, _, value⟩
  · rw [text, singleton_append, unescape, encoded, singleton_append]
    · exact fun _ same => absurd same plain
    · exact fun _ _ _ same => absurd same plain
  · rw [text]
    simp only [cons_append, nil_append]
    rw [unescape]
    · rw [value]
    · exact fun same => absurd same plain

theorem unescape_flatMap (bytes : List UInt8) : unescape (bytes.flatMap byteText) = bytes := by
  induction bytes with
  | nil => rfl
  | cons byte bytes ih => rw [flatMap_cons, unescape_byteText, ih]

theorem quote_not_mem_flatMap (bytes : List UInt8) : '"' ∉ bytes.flatMap byteText := by
  intro member
  obtain ⟨byte, _, inside⟩ := mem_flatMap.mp member
  rcases byteText_cases byte with ⟨c, text, _, other, _⟩ | ⟨high, low, text, _, first, second, _⟩
  · rw [text, mem_singleton] at inside
    exact other inside.symm
  · simp only [text, mem_cons, not_mem_nil, or_false] at inside
    rcases inside with same | same | same
    · exact absurd same (by decide)
    · exact first same.symm
    · exact second same.symm

end Ir

section Bytes

theorem toList_loop (bytes : ByteArray) (i : Nat) (done : List UInt8) :
    ByteArray.toList.loop bytes i done = done.reverse ++ bytes.data.toList.drop i := by
  by_cases inside : i < bytes.size
  · have within : i < bytes.data.toList.length := by simpa using inside
    have here : bytes.get! i = bytes.data.toList[i] := by simp [ByteArray.get!, inside]
    rw [ByteArray.toList.loop.eq_1, if_pos inside, toList_loop bytes (i + 1), here,
      drop_eq_getElem_cons within]
    simp
  · rw [ByteArray.toList.loop.eq_1, if_neg inside, drop_eq_nil_of_le (by simpa using inside)]
    simp
termination_by bytes.size - i

theorem length_constantBytes (text : String) : (constantBytes text).length = text.utf8ByteSize + 1 := by
  have length : text.toUTF8.toList.length = text.utf8ByteSize := by
    rw [ByteArray.toList, toList_loop]
    simp
  rw [constantBytes, length_append, length]
  rfl

end Bytes

/-- The constant of a text as code shows it: its length in bytes, with the zero at its end, and
between quotes what reads back as these bytes. -/
theorem text_constant (name text : String) : ∃ body : List Char,
    (Ir.Global.string name (constantBytes text)).text =
      "@" ++ Ir.quoteName name ++ " = internal constant [" ++ toString (text.utf8ByteSize + 1) ++
        " x i8] c\"" ++ String.ofList body ++ "\"" ∧
      Ir.unescape body = text.toUTF8.toList ++ [0] ∧ '"' ∉ body := by
  refine ⟨(constantBytes text).flatMap Ir.byteText, ?_, Ir.unescape_flatMap _,
    Ir.quote_not_mem_flatMap _⟩
  have type : (Ir.Ty.array (text.utf8ByteSize + 1) .i8).text =
      "[" ++ toString (text.utf8ByteSize + 1) ++ " x " ++ "i8" ++ "]" := by
    have item : Ir.Ty.i8.text = "i8" := by decide
    rfl
  rw [Ir.Global.text, length_constantBytes, type]
  simp [String.ext_iff]

end LeftHand
