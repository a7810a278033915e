import Dvcs.Proofs.Process.Handle
import Dvcs.Proofs.Text.Join

/-!
This module contains the lines of whole outputs: cutting lines off one by one and decoding each of
them gives the same lines as decoding the whole output, and the lines make up the output again, up
to a final line feed.
-/

namespace Dvcs

namespace Text

theorem joinLines_splitOn (t : Text) : joinLines (splitOn (.char '\n') t) = t :=
  join_splitOn (.char '\n') t

theorem joinLines_concat_nil {ls : List Text} (h : ls ≠ []) :
    joinLines (ls ++ [[]]) = joinLines ls ++ [.char '\n'] := by
  unfold joinLines join
  induction ls with
  | nil => contradiction
  | cons line ls ih =>
    cases ls with
    | nil => simp
    | cons next ls =>
      rw [List.cons_append, List.cons_append, List.intercalate_cons_cons,
        List.intercalate_cons_cons, ← List.cons_append, ih (List.cons_ne_nil next ls)]
      simp

@[simp]
theorem outputLines_nil : outputLines [] = [] := by
  simp [outputLines, splitOn]

theorem newline_mem_decode {bs : Bytes} : .char '\n' ∈ decode bs ↔ 10 ∈ bs := by
  have hmem := mem_encode (highStrays_decode bs) (c := '\n') (by decide)
  rw [encode_decode] at hmem
  exact hmem.symm

theorem decode_eq_nil {bs : Bytes} (h : decode bs = []) : bs = [] := by
  rw [← encode_decode bs, h, encode_nil]

theorem outputLines_of_not_mem {bs : Bytes} (hne : bs ≠ []) (h : 10 ∉ bs) :
    outputLines bs = [decode bs] := by
  unfold outputLines
  rw [splitOn_of_not_mem fun hmem => h (newline_mem_decode.1 hmem)]
  have hdecode : decode bs ≠ [] := fun heq => hne (decode_eq_nil heq)
  simp [hdecode]

theorem outputLines_append {line : Bytes} (h : 10 ∉ line) (rest : Bytes) :
    outputLines (line ++ 10 :: rest) = decode line :: outputLines rest := by
  unfold outputLines
  rw [decode_append_newline, splitOn_append_cons fun hmem => h (newline_mem_decode.1 hmem)]
  obtain ⟨w, ws, hsplit⟩ := List.exists_cons_of_ne_nil (splitOn_ne_nil (.char '\n') (decode rest))
  dsimp only
  rw [hsplit, List.getLast?_cons_cons]
  split
  . rw [List.dropLast_cons_of_ne_nil (List.cons_ne_nil w ws)]
  . rfl

/-- The lines of some output, with a line feed between them, are the output but for a last line
feed. -/
theorem encode_joinLines_outputLines (bs : Bytes) :
    encode (joinLines (outputLines bs)) = bs ∨
      encode (joinLines (outputLines bs)) ++ [10] = bs := by
  have hjoin := joinLines_splitOn (decode bs)
  unfold outputLines
  dsimp only
  split
  . next hlast =>
    obtain ⟨front, hfront⟩ := List.getLast?_eq_some_iff.1 hlast
    rw [hfront] at hjoin ⊢
    rw [List.dropLast_concat]
    cases front with
    | nil =>
      left
      rw [decode_eq_nil hjoin.symm]
      rfl
    | cons line front =>
      right
      rw [joinLines_concat_nil (List.cons_ne_nil line front)] at hjoin
      have hbytes := congrArg encode hjoin
      rwa [encode_append, encode_decode] at hbytes
  . left
    rw [hjoin, encode_decode]

end Text

namespace Handle

open Text

theorem cutLine_of_not_mem {bs : Bytes} (h : 10 ∉ bs) : cutLine bs = (bs, []) := by
  induction bs with
  | nil => rfl
  | cons b bs ih =>
    rw [List.mem_cons, not_or] at h
    rw [cutLine, if_neg (Ne.symm h.1), ih h.2]

theorem linesOf_of_not_mem {bs : Bytes} (hne : bs ≠ []) (h : 10 ∉ bs) :
    linesOf bs = [decode bs] := by
  cases bs with
  | nil => contradiction
  | cons b bs =>
    rw [linesOf, cutLine_of_not_mem h]
    rw [linesOf]

/-- Bytes are decoded line by line as they are decoded as a whole. -/
theorem linesOf_eq_outputLines (bs : Bytes) : linesOf bs = outputLines bs := by
  by_cases hmem : 10 ∈ bs
  . obtain ⟨line, rest, hbs, hline⟩ := List.eq_append_cons_of_mem hmem
    rw [hbs, linesOf_append hline, outputLines_append hline, linesOf_eq_outputLines rest]
  . cases bs with
    | nil => rw [linesOf, outputLines_nil]
    | cons b bs =>
      have hne := List.cons_ne_nil b bs
      rw [linesOf_of_not_mem hne hmem, outputLines_of_not_mem hne hmem]
termination_by bs.length
decreasing_by
  rw [hbs, List.length_append, List.length_cons]
  omega

end Handle

end Dvcs
