import Dvcs.Path
import Dvcs.Proofs.Path.Quoted
import Dvcs.Proofs.Text.Stray
import Mathlib.Algebra.GroupWithZero.Nat
import Mathlib.Data.List.Basic

/-!
This module contains the pieces of a shown path that is cut at a separator between words. A quoted
path keeps one quote at each end then, and both pieces can still be read.
-/

namespace Dvcs

open Text

namespace Path

theorem exists_of_escape_eq_append {t a b : Text} (h : escape t = a ++ .char ' ' :: b) :
    ∃ u v, t = u ++ .char ' ' :: v ∧ a = escape u ∧ b = escape v := by
  -- a space is never quoted, and it is never part of an escape
  induction t generalizing a with
  | nil => cases a <;> contradiction
  | cons c t ih =>
    rw [escape_cons] at h
    rcases List.append_eq_append_iff.1 h with ⟨rest, rfl, hrest⟩ | ⟨rest, hquoted, hrest⟩
    . obtain ⟨u, v, rfl, rfl, rfl⟩ := ih hrest
      exact ⟨c :: u, v, rfl, rfl, rfl⟩
    . cases rest with
      | nil =>
        obtain ⟨u, v, rfl, hu, rfl⟩ := ih (a := []) hrest.symm
        rw [List.append_nil] at hquoted
        exact ⟨c :: u, v, rfl, by rw [escape_cons, ← hu, hquoted, List.append_nil], rfl⟩
      | cons d rest =>
        rw [List.cons_append] at hrest
        obtain ⟨rfl, hb⟩ := List.cons.inj hrest
        have hspace : Sym.char ' ' ∈ quoteSym c := by simp [hquoted]
        obtain rfl := eq_of_mem_quoteSym hspace (by decide)
        have hquoted' : [Sym.char ' '] = a ++ .char ' ' :: rest := hquoted
        cases a with
        | nil =>
          obtain rfl : rest = [] := by simpa using hquoted'.symm
          exact ⟨[], t, rfl, rfl, hb⟩
        | cons e a => simp at hquoted'

theorem exists_quoteSym_eq_cons (c : Sym) : ∃ d rest, quoteSym c = d :: rest ∧ d ≠ '"' := by
  unfold quoteSym
  split
  . exact ⟨_, _, rfl, by decide⟩
  . next h =>
    rw [Bool.or_eq_true, decide_eq_true_eq, decide_eq_true_eq, not_or] at h
    split
    . exact ⟨_, _, rfl, by decide⟩
    . split
      . exact ⟨_, _, rfl, by decide⟩
      . split
        . exact ⟨_, _, rfl, h.1⟩
        . obtain ⟨b, bs, hbytes⟩ := List.exists_cons_of_ne_nil (Sym.encode_ne_nil c)
          rw [hbytes]
          exact ⟨_, _, rfl, by decide⟩

theorem head?_escape_ne (t : Text) : (escape t).head? ≠ some (.char '"') := by
  cases t with
  | nil => nofun
  | cons c t =>
    obtain ⟨d, rest, hquoted, hd⟩ := exists_quoteSym_eq_cons c
    rw [escape_cons, hquoted]
    simpa using hd

theorem unquote_of_head?_ne {t : Text} (h : t.head? ≠ some (.char '"')) : unquote t = .ok t := by
  have hunwrap : unwrap? t = none := by
    unfold unwrap?
    split
    . contradiction
    . rfl
  unfold unquote
  rw [hunwrap]

theorem count_space_quote (t : Text) : (quote t).count (.char ' ') = t.count (.char ' ') := by
  have hsym (c : Sym) : (quoteSym c).count (.char ' ') = if c = ' ' then 1 else 0 := by
    split
    . next h => rw [h]; decide
    . next h =>
      exact List.count_eq_zero.2 fun hmem => h (eq_of_mem_quoteSym hmem (by decide)).symm
  have hescape : (escape t).count (.char ' ') = t.count (.char ' ') := by
    induction t with
    | nil => rfl
    | cons c t ih =>
      rw [escape_cons, List.count_append, hsym, ih, List.count_cons, Nat.add_comm]
      simp
  rw [quote_eq]
  split
  . rw [List.count_cons, List.count_append, hescape]
    simp
  . rfl

theorem sum_count_splitOn {s c : Sym} (h : c ≠ s) (t : Text) :
    ((splitOn s t).map (·.count c)).sum = t.count c := by
  induction t with
  | nil => rfl
  | cons d t ih =>
    obtain ⟨w, ws, hsplit⟩ := List.exists_cons_of_ne_nil (splitOn_ne_nil s t)
    rw [hsplit, List.map_cons, List.sum_cons] at ih
    rw [splitOn, hsplit, List.count_cons, ← ih]
    split
    . next hd => simp [hd, Ne.symm h]
    . rw [List.map_cons, List.sum_cons, List.count_cons, Nat.add_right_comm]

/-- The parts of a path hold all spaces of its text. -/
theorem sum_count_partsOf (t : Text) :
    ((partsOf t).map (·.count (.char ' '))).sum = t.count (.char ' ') := by
  rw [← sum_count_splitOn (s := .char '/') (by decide) t]
  unfold partsOf
  induction splitOn (.char '/') t with
  | nil => rfl
  | cons part parts ih =>
    rw [List.filter_cons, List.map_cons, List.sum_cons, ← ih]
    split
    . rw [List.map_cons, List.sum_cons]
    . next hkept =>
      have hnone : part.count (.char ' ') = 0 := by
        simp only [Bool.and_eq_true, decide_eq_true_eq, not_and_or, not_not] at hkept
        rcases hkept with rfl | rfl
        . rfl
        . decide
      rw [hnone, Nat.zero_add]

/-- Where a shown path is cut at the separator, both pieces are pieces of the path: they are quoted
or not like the whole, and the quotes stand at the far ends. -/
theorem cases_of_quote_eq_append {t a b : Text} (hb : b ≠ []) (h : quote t = a ++ " and " ++ b) :
    (Sym.char '"' ∉ a ∧ Sym.char '"' ∉ b) ∨
      ∃ u v, a = .char '"' :: escape u ∧ b = escape v ++ [.char '"'] := by
  rw [quote_eq] at h
  split at h
  . right
    obtain ⟨b, last, rfl⟩ := (List.eq_nil_or_concat b).resolve_left hb
    rw [List.concat_eq_append, ← List.append_assoc, ← List.cons_append] at h
    obtain ⟨hfront, hlast⟩ := List.append_inj' h rfl
    obtain rfl : Sym.char '"' = last := List.singleton_inj.1 hlast
    cases a with
    | nil => simp [ofString] at hfront
    | cons c a =>
      obtain ⟨rfl, hbody⟩ := List.cons.inj hfront
      have hfirst : escape t = a ++ .char ' ' :: (ofString "and " ++ b) := by
        rw [hbody]
        simp [ofString]
      obtain ⟨u, rest, rfl, rfl, hrest⟩ := exists_of_escape_eq_append hfirst
      have hsecond : escape rest = ofString "and" ++ .char ' ' :: b := by
        rw [← hrest]
        simp [ofString]
      obtain ⟨_, v, _, _, rfl⟩ := exists_of_escape_eq_append hsecond
      exact ⟨u, v, rfl, List.concat_eq_append⟩
  . next hplain =>
    left
    rw [Bool.not_eq_true] at hplain
    have hnone := not_mem_quote_of_not_needsQuotes hplain
    rw [h, List.mem_append, List.mem_append, not_or, not_or] at hnone
    exact ⟨hnone.1.1, hnone.2⟩

theorem unquote_behind {t a b : Text} (hb : b ≠ []) (h : quote t = a ++ " and " ++ b) :
    unquote b = .ok b := by
  rcases cases_of_quote_eq_append hb h with hnone | ⟨u, v, rfl, rfl⟩
  . exact unquote_of_not_mem hnone.2
  . by_cases hv : escape v = []
    . rw [hv]
      rfl
    . refine unquote_of_head?_ne ?_
      rw [List.head?_append_of_ne_nil _ hv]
      exact head?_escape_ne v

theorem eq_of_unwrap? {t body : Text} (h : unwrap? t = some body) :
    t = .char '"' :: (body ++ [.char '"']) := by
  unfold unwrap? at h
  split at h
  . next t =>
    split at h
    . next body' hreverse =>
      cases h
      have := congrArg List.reverse hreverse
      simpa using this
    . contradiction
  . contradiction

theorem unquoteBytes_append_of_not_mem {t : Text} (h : Sym.char '\\' ∉ t) (rest : Text) :
    unquoteBytes (t ++ rest) = (encode t ++ ·) <$> unquoteBytes rest := by
  induction t with
  | nil => exact (id_map (unquoteBytes rest)).symm
  | cons c t ih =>
    rw [List.mem_cons, not_or] at h
    rw [List.cons_append, unquoteBytes_cons (Ne.symm h.1), ih h.2, encode_cons]
    simp only [Functor.map_map, List.append_assoc]

/-- A quoted path that is followed by the front piece of another one has no broken escape: at most
the backslash in front of a quote is left without the quote. -/
theorem exists_unquoteBytes {s u body : Text}
    (h : body ++ [.char '"'] = escape s ++ (ofString "\" and \"" ++ escape u)) :
    ∃ bs, unquoteBytes body = .ok bs := by
  rcases List.eq_nil_or_concat u with rfl | ⟨u, c, rfl⟩
  . have hbody : body = escape s ++ (ofString "\" and " ++ []) := by
      have hend : ofString "\" and \"" ++ escape [] = ofString "\" and " ++ [.char '"'] := rfl
      rw [hend, ← List.append_assoc] at h
      rw [List.append_nil]
      exact (List.append_inj' h rfl).1
    rw [hbody, unquoteBytes_escape_append, unquoteBytes_append_of_not_mem (by decide)]
    exact ⟨_, rfl⟩
  . obtain ⟨d, rest, hcons, _⟩ := exists_quoteSym_eq_cons c
    obtain ⟨front, last, hquoted⟩ :=
      (List.eq_nil_or_concat (quoteSym c)).resolve_left (by simp [hcons])
    rw [List.concat_eq_append] at hquoted
    have hescape : escape (u.concat c) = escape u ++ front ++ [last] := by
      rw [List.concat_eq_append, escape, List.flatMap_append, List.flatMap_singleton, hquoted,
        ← List.append_assoc]
      rfl
    rw [hescape, ← List.append_assoc, ← List.append_assoc] at h
    obtain ⟨hbody, hlast⟩ := List.append_inj' h rfl
    obtain rfl : Sym.char '"' = last := List.singleton_inj.1 hlast
    obtain rfl := eq_of_mem_quoteSym (c := c) (d := .char '"') (by simp [hquoted]) (by decide)
    obtain rfl : front = [.char '\\'] := (List.append_inj' hquoted.symm rfl).1
    rw [hbody, List.append_assoc, unquoteBytes_escape_append,
      unquoteBytes_append_of_not_mem (by decide), unquoteBytes_escape_append]
    exact ⟨_, rfl⟩

theorem exists_unquote_front {s t a b : Text} (hb : b ≠ []) (h : quote t = a ++ " and " ++ b) :
    ∃ path, unquote (quote s ++ " and " ++ a) = .ok path := by
  cases hunwrap : unwrap? (quote s ++ " and " ++ a) with
  | none =>
    unfold unquote
    rw [hunwrap]
    exact ⟨_, rfl⟩
  | some body =>
    have hwhole := eq_of_unwrap? hunwrap
    suffices hbytes : ∃ bs, unquoteBytes body = .ok bs by
      obtain ⟨bs, hbytes⟩ := hbytes
      unfold unquote
      rw [hunwrap]
      dsimp only
      rw [hbytes]
      exact ⟨_, rfl⟩
    rw [quote_eq] at hwhole
    split at hwhole
    . rw [List.cons_append, List.cons_append, List.cons.injEq, List.append_assoc] at hwhole
      rcases cases_of_quote_eq_append hb h with hnone | ⟨u, v, rfl, _⟩
      . -- the second name has no quote that could end the whole
        have hlast := congrArg List.getLast? hwhole.2
        rw [List.getLast?_append_of_ne_nil _ (by simp [ofString]), List.getLast?_concat] at hlast
        have hmem := List.mem_append.1 (List.mem_of_getLast? hlast)
        exact absurd (hmem.resolve_left (by decide)) hnone.1
      . refine exists_unquoteBytes (s := s) (u := u) ?_
        rw [← hwhole.2]
        simp [ofString]
    . next hplain =>
      rw [Bool.not_eq_true] at hplain
      have hnone := not_mem_quote_of_not_needsQuotes hplain
      cases s with
      | nil => simp [ofString] at hwhole
      | cons c s =>
        obtain ⟨rfl, _⟩ := List.cons.inj hwhole
        exact absurd List.mem_cons_self hnone

end Path

end Dvcs
