import Dvcs.Proofs.Text.Utf8
import Dvcs.Text.Strict

/-!
This module contains the strict way between texts and bytes: it goes through for exactly the texts
without stray bytes, and then it is the lenient one.
-/

namespace Dvcs

namespace Text

/-- Every symbol is a character. -/
def NoStrays (t : Text) : Prop := ∀ b, Sym.byte b ∉ t

theorem noStrays_char_cons {c : Char} {t : Text} : NoStrays (.char c :: t) ↔ NoStrays t := by
  simp [NoStrays]

theorem not_noStrays_byte_cons {b : UInt8} {t : Text} : ¬ NoStrays (.byte b :: t) :=
  fun h => h b List.mem_cons_self

theorem noStrays_append {s t : Text} : NoStrays (s ++ t) ↔ NoStrays s ∧ NoStrays t := by
  simp only [NoStrays, List.mem_append, not_or]
  exact forall_and

theorem noStrays_ofString (s : String) : NoStrays (ofString s) := by
  intro b hb
  obtain ⟨c, _, heq⟩ := List.mem_map.1 hb
  contradiction

theorem encodeStrictFrom_of_noStrays {t : Text} (h : NoStrays t) (start : Nat) :
    encodeStrictFrom start t = .ok (encode t) := by
  induction t generalizing start with
  | nil => rfl
  | cons s t ih =>
    cases s with
    | byte b => exact absurd h not_noStrays_byte_cons
    | char c =>
      rw [encodeStrictFrom, ih (noStrays_char_cons.1 h)]
      rfl

theorem exists_encodeStrictFrom_eq_error {t : Text} (h : ¬ NoStrays t) (start : Nat) :
    ∃ e, encodeStrictFrom start t = .error e := by
  induction t generalizing start with
  | nil => exact absurd (fun _ => List.not_mem_nil) h
  | cons s t ih =>
    cases s with
    | byte b => exact ⟨_, rfl⟩
    | char c =>
      rw [noStrays_char_cons] at h
      obtain ⟨e, he⟩ := ih h (start + 1)
      exact ⟨e, by rw [encodeStrictFrom, he]; rfl⟩

theorem decodeStrictFrom_encode {t : Text} (h : NoStrays t) (start : Nat) :
    decodeStrictFrom start (encode t) = .ok t := by
  induction t generalizing start with
  | nil => rw [encode_nil, decodeStrictFrom]
  | cons s t ih =>
    cases s with
    | byte b => exact absurd h not_noStrays_byte_cons
    | char c =>
      have hfirst := firstChar?_utf8EncodeChar_append c (encode t)
      have hbytes : encode (.char c :: t) = String.utf8EncodeChar c ++ encode t := rfl
      obtain ⟨b, bs, hcons⟩ : ∃ b bs, String.utf8EncodeChar c ++ encode t = b :: bs :=
        List.exists_cons_of_ne_nil (by simp)
      rw [hcons] at hfirst
      rw [hbytes, hcons, decodeStrictFrom]
      split
      . next c' rest heq =>
        cases hfirst.symm.trans heq
        rw [ih (noStrays_char_cons.1 h)]
        rfl
      . next heq =>
        rw [hfirst] at heq
        contradiction

end Text

end Dvcs
