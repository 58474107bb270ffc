/-
ReversePolish/Proofs/Scalars.lean

Characters and their codes.  The code of a character is a Unicode scalar value:
at most `0x10ffff` and no surrogate.  Between characters and such codes
`Char.toNat` and `charOfCode?` are inverse to each other.

`encode` writes a code as a number, and `decode` takes any number for a code: it
truncates, and stays within 32 bits.  A code is small enough to be a number
exactly, so nothing is lost on the way there and back (`execute_codec`).
-/
import ReversePolish.Proofs.Editing
import ReversePolish.Proofs.Exactness

namespace ReversePolish

open Routine

/-! ### Scalar values -/

/-- A code that only stands for half a character. -/
def IsSurrogate (point : ℕ) : Prop := 0xd800 ≤ point ∧ point ≤ 0xdfff

namespace Operator

variable {point : ℕ} {c : Char}

theorem charOfCode?_eq_none_iff :
    charOfCode? point = none ↔ IsSurrogate point ∨ 0x10ffff < point := by
  have hvalid_iff : point.isValidChar ↔ ¬(IsSurrogate point ∨ 0x10ffff < point) := by
    unfold Nat.isValidChar IsSurrogate
    omega
  by_cases hvalid : point.isValidChar
  · rw [charOfCode?, dif_pos hvalid]
    exact iff_of_false nofun (hvalid_iff.mp hvalid)
  · rw [charOfCode?, dif_neg hvalid]
    exact iff_of_true rfl (not_not.mp (mt hvalid_iff.mpr hvalid))

theorem charOfCode?_toNat (c : Char) : charOfCode? c.toNat = some c := by
  have hvalid : c.toNat.isValidChar := c.valid
  rw [charOfCode?, dif_pos hvalid]
  rfl

theorem toNat_of_charOfCode? (h : charOfCode? point = some c) : c.toNat = point := by
  by_cases hvalid : point.isValidChar
  · rw [charOfCode?, dif_pos hvalid] at h
    cases h
    rfl
  · rw [charOfCode?, dif_neg hvalid] at h
    cases h

end Operator

/-! ### Codes as numbers -/

theorem Number.toCodePoint_le (n : Number) : n.toCodePoint ≤ 0xffffffff := Nat.min_le_right _ _

/-- Codes of 32 bits are exact, and are taken for the same codes. -/
theorem Number.toCodePoint_ofNat {n : ℕ} (h : n ≤ 0xffffffff) : (ofNat n).toCodePoint = n := by
  have hwhole : (Magnitude.ofNat n).whole = n :=
    Magnitude.whole_eq (Magnitude.value_ofNat_of_le (h.trans (by decide)))
  have hindex : (ofNat n).toIndex = min (Magnitude.ofNat n).whole maxIndex := by
    rw [ofNat, toIndex]
  rw [toCodePoint, hindex, hwhole, maxIndex]
  omega

theorem Number.rational?_ofNat_toCodePoint (n : Number) :
    (ofNat n.toCodePoint).rational? = some (n.toCodePoint : ℚ) := by
  have hle := n.toCodePoint_le
  exact rational?_ofNat (Magnitude.isFinite_ofNat (by omega)) (Magnitude.value_ofNat_of_le (by omega))

/-! ### The commands -/

section Commands

variable {v : Value} {n : Number} {c : Char} (evaluate : String → Routine Unit) (bound : Nat)

theorem exchanges_encode (h : v.toText.toList.head? = some c) :
    Exchanges (execute evaluate bound "encode") [v] [.ofNat c.toNat] := by
  refine .execute (c := .operator .encode) (.of_run fun m => ?_)
  have hpop : runOn popText (m.holding [v]) = (.ok v.toText, m) := rfl
  obtain ⟨rest, hrest⟩ := List.head?_eq_some_iff.mp h
  show runOn Operator.runEncode _ = _
  rw [Operator.runEncode, runOn_bind_of_ok hpop, hrest]
  rfl

/-- With its operand brought to a number, `decode` pushes a character or refuses. -/
theorem runOn_runDecode (hv : v.toNumber = .ok n) (m : Machine) :
    runOn Operator.runDecode (m.holding [v]) =
      match Operator.charOfCode? n.toCodePoint with
      | some c => (.ok (), m.holding [.text (String.singleton c)])
      | none => (.error (.refusal (.undecodable n n.toCodePoint)), m) := by
  rw [Operator.runDecode, runOn_bind_of_ok (runOn_popNumber hv m)]
  cases Operator.charOfCode? n.toCodePoint with
  | some c => rfl
  | none => rfl

theorem exchanges_decode (hv : v.toNumber = .ok n)
    (hc : Operator.charOfCode? n.toCodePoint = some c) :
    Exchanges (execute evaluate bound "decode") [v] [.text (String.singleton c)] := by
  refine .execute (c := .operator .decode) (.of_run fun m => (runOn_runDecode hv m).trans ?_)
  rw [hc]

theorem decode_refuses_iff (hv : v.toNumber = .ok n) (m : Machine) :
    Operator.decode.Refuses [v] m ↔ Operator.charOfCode? n.toCodePoint = none := by
  have hrun := runOn_runDecode hv m
  refine Operator.refuses_iff (fun hnone => ?_) fun hsome => ?_
  · rw [hnone] at hrun
    exact ⟨_, _, hrun⟩
  · obtain ⟨c, hc⟩ := Option.ne_none_iff_exists'.mp hsome
    rw [hc] at hrun
    exact ⟨_, hrun⟩

/-- The number that was taken for a code is given back. -/
theorem execute_decode_refused (hv : v.toNumber = .ok n)
    (hnone : Operator.charOfCode? n.toCodePoint = none) (m : Machine) :
    ∃ m', runOn (execute evaluate bound "decode") (m.holding [v]) = (.ok (), m') ∧
      Restored m (.number n) m.stack.topFirst
        ("Failed to decode " ++ toString n.toCodePoint ++ " into a character") m' := by
  have hrun := runOn_runDecode hv (m.noting "decode")
  rw [hnone] at hrun
  exact execute_refused .decode (.undecodable n n.toCodePoint) rfl hrun evaluate bound

/-- A character and back. -/
theorem exchanges_encode_decode (h : v.toText.toList.head? = some c) :
    Exchanges (do execute evaluate bound "encode"; execute evaluate bound "decode") [v]
      [.text (String.singleton c)] := by
  have hcode : c.toNat ≤ 0xffffffff := Nat.le_of_lt_succ c.val.toNat_lt
  refine (exchanges_encode evaluate bound h).trans (exchanges_decode evaluate bound rfl ?_)
  rw [Number.toCodePoint_ofNat hcode, Operator.charOfCode?_toNat]

/-- A code and back. -/
theorem exchanges_decode_encode (hv : v.toNumber = .ok n)
    (hc : Operator.charOfCode? n.toCodePoint = some c) :
    Exchanges (do execute evaluate bound "decode"; execute evaluate bound "encode") [v]
      [.number (.ofNat n.toCodePoint)] := by
  have hhead : (Value.text (String.singleton c)).toText.toList.head? = some c := by
    rw [Value.toText, String.toList_singleton]
    rfl
  have hencode := exchanges_encode evaluate bound hhead
  rw [Operator.toNat_of_charOfCode? hc] at hencode
  exact (exchanges_decode evaluate bound hv hc).trans hencode

end Commands

/-- **Between characters and Unicode scalar values nothing is lost.**  The first
character of a text, encoded and decoded again, is the text of that character.
Any operand that can be taken for a number is taken for a code.  A surrogate or
a code beyond the last one is refused: the number is pushed and one error is
logged.  Any other code, decoded and encoded again, is exactly that code. -/
theorem execute_codec (evaluate : String → Routine Unit) (bound : Nat) :
    let encode := execute evaluate bound "encode"
    let decode := execute evaluate bound "decode"
    (∀ (v : Value) (c : Char), v.toText.toList.head? = some c →
      Exchanges (do encode; decode) [v] [.text (String.singleton c)]) ∧
    ∀ (v : Value) (n : Number), v.toNumber = .ok n →
      let point := n.toCodePoint
      let unfit := IsSurrogate point ∨ 0x10ffff < point
      (∀ m : Machine, Operator.decode.Refuses [v] m ↔ unfit) ∧
      (unfit → ∀ m : Machine, ∃ m', runOn decode (m.holding [v]) = (.ok (), m') ∧
        Restored m (.number n) m.stack.topFirst
          ("Failed to decode " ++ toString point ++ " into a character") m') ∧
      (¬unfit → Exchanges (do decode; encode) [v] [.number (.ofNat point)] ∧
        (Number.ofNat point).rational? = some (point : ℚ)) := by
  intro encode decode
  refine ⟨fun v c h => exchanges_encode_decode evaluate bound h, fun v n hv => ?_⟩
  intro point unfit
  have hunfit : Operator.charOfCode? point = none ↔ unfit := Operator.charOfCode?_eq_none_iff
  refine ⟨fun m => (decode_refuses_iff hv m).trans hunfit, fun h m => ?_, fun h => ?_⟩
  · exact execute_decode_refused evaluate bound hv (hunfit.mpr h) m
  · obtain ⟨c, hc⟩ := Option.ne_none_iff_exists'.mp (mt hunfit.mp h)
    exact ⟨exchanges_decode_encode evaluate bound hv hc, n.rational?_ofNat_toCodePoint⟩

/-- A character beyond sixteen bits and a text after it; no number at all, which is
the code zero; a fraction; the last surrogate, as a text; and infinity, which is
the largest code of 32 bits. -/
theorem execute_codec_limits :
    let encode := execute (evaluate 1) 1 "encode"
    let decode := execute (evaluate 1) 1 "decode"
    let m : Machine := { Machine.bare with stack := .ofList [.truth true] }
    Exchanges (do encode; decode) [.text "𐀀a"] [.text "𐀀"] ∧
    Exchanges (do decode; encode) [.number .nan] [.number .zero] ∧
    Exchanges (do decode; encode) [.text "65.9"] [.ofNat 65] ∧
    (∃ m', runOn decode (m.holding [.text "57343"]) = (.ok (), m') ∧
      Restored m (.ofNat 0xdfff) [.truth true] "Failed to decode 57343 into a character" m') ∧
    ∃ m', runOn decode (m.holding [.number .infinity]) = (.ok (), m') ∧
      Restored m (.number .infinity) [.truth true]
        "Failed to decode 4294967295 into a character" m' := by
  intro encode decode m
  let sixtyFive : Number := .signed false ⟨0x405079999999999a, by decide⟩
  have hfraction : (Value.text "65.9").toNumber = .ok sixtyFive := by decide +kernel
  have hlast : (Value.text "57343").toNumber = .ok (.ofNat 57343) := by decide +kernel
  have hzero : Number.nan.toCodePoint = 0 := by decide
  have hpoint : sixtyFive.toCodePoint = 65 := by decide +kernel
  have hsurrogate : (Number.ofNat 57343).toCodePoint = 57343 := by decide +kernel
  have hbeyond : Number.infinity.toCodePoint = 0xffffffff := by decide +kernel
  obtain ⟨hcharacter, hcode⟩ := execute_codec (evaluate 1) 1
  obtain ⟨-, -, hnan⟩ := hcode (.number .nan) .nan rfl
  obtain ⟨-, -, hfit⟩ := hcode (.text "65.9") sixtyFive hfraction
  obtain ⟨-, hrefused, -⟩ := hcode (.text "57343") (.ofNat 57343) hlast
  obtain ⟨-, hrefused', -⟩ := hcode (.number .infinity) .infinity rfl
  rw [hzero] at hnan
  rw [hpoint] at hfit
  rw [hsurrogate] at hrefused
  rw [hbeyond] at hrefused'
  refine ⟨hcharacter (.text "𐀀a") '𐀀' (by decide), (hnan ?_).1, (hfit ?_).1, hrefused ?_ m,
    hrefused' ?_ m⟩
  all_goals unfold IsSurrogate; decide

end ReversePolish
