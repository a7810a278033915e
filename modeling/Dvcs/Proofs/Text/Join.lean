import Dvcs.Proofs.Text.Stray

/-!
This module contains the laws of joined texts: they are split into the parts again, and the bytes of
the whole are the joined bytes of the parts.
-/

namespace Dvcs

namespace Text

theorem decode_intercalate {c : Char} (hc : c.toNat < 128) (bss : List Bytes) :
    decode ([UInt8.ofNat c.toNat].intercalate bss) = join [.char c] (bss.map decode) := by
  have hbyte : (UInt8.ofNat c.toNat).toNat < 128 := by
    rw [UInt8.toNat_ofNat']
    omega
  have hcons (bs : Bytes) : decode (UInt8.ofNat c.toNat :: bs) = .char c :: decode bs := by
    rw [← decode_utf8EncodeChar_append, utf8EncodeChar_ascii hc]
    rfl
  unfold join
  induction bss with
  | nil => exact decode_nil
  | cons bs bss ih =>
    cases bss with
    | nil => simp
    | cons bs' bss =>
      rw [List.map_cons, List.map_cons, List.intercalate_cons_cons, List.intercalate_cons_cons]
      rw [List.append_assoc, List.singleton_append, decode_append_ascii hbyte, hcons, ih]
      rw [List.map_cons, List.append_assoc, List.singleton_append]

theorem encode_join {c : Char} (hc : c.toNat < 128) (ts : List Text) :
    encode (join [.char c] ts) = [UInt8.ofNat c.toNat].intercalate (ts.map encode) := by
  have hbyte : encode [.char c] = [UInt8.ofNat c.toNat] := by
    rw [encode_cons, encode_nil, List.append_nil, Sym.encode, utf8EncodeChar_ascii hc]
  unfold join
  induction ts with
  | nil => rfl
  | cons t ts ih =>
    cases ts with
    | nil => simp
    | cons u ts =>
      rw [List.map_cons, List.map_cons, List.intercalate_cons_cons, List.intercalate_cons_cons]
      rw [encode_append, encode_append, hbyte, ih, List.map_cons]

theorem decode_encode_join {c : Char} (hc : c.toNat < 128) (ts : List Text) :
    decode (encode (join [.char c] ts)) = join [.char c] (ts.map fun t => decode (encode t)) := by
  rw [encode_join hc, decode_intercalate hc, List.map_map]
  rfl

theorem fromBytes_join {c : Char} (hc : c.toNat < 128) {ts : List Text}
    (h : ∀ t ∈ ts, FromBytes t) : FromBytes (join [.char c] ts) := by
  unfold FromBytes
  rw [decode_encode_join hc, List.map_congr_left h, List.map_id']

theorem highStrays_join {separator : Text} (hseparator : HighStrays separator) {ts : List Text}
    (h : ∀ t ∈ ts, HighStrays t) : HighStrays (join separator ts) := by
  unfold join
  induction ts with
  | nil => nofun
  | cons t ts ih =>
    rw [List.forall_mem_cons] at h
    cases ts with
    | nil => simpa using h.1
    | cons u ts =>
      rw [List.intercalate_cons_cons]
      exact highStrays_append.2 ⟨highStrays_append.2 ⟨h.1, hseparator⟩, ih h.2⟩

theorem mem_of_mem_splitOn {s c : Sym} {t w : Text} (hw : w ∈ splitOn s t) (hc : c ∈ w) :
    c ∈ t ∧ c ≠ s := by
  fun_induction splitOn s t generalizing w with
  | case1 =>
    rw [List.mem_singleton.1 hw] at hc
    contradiction
  | case2 t ih =>
    rcases List.mem_cons.1 hw with rfl | hw
    . contradiction
    . have := ih hw hc
      exact ⟨List.mem_cons_of_mem _ this.1, this.2⟩
  | case3 d t hd hrest ih => exact absurd hrest (splitOn_ne_nil s t)
  | case4 d t hd w' ws hrest ih =>
    rw [hrest] at ih
    rcases List.mem_cons.1 hw with rfl | hw
    . rcases List.mem_cons.1 hc with rfl | hc
      . exact ⟨List.mem_cons_self, hd⟩
      . have := ih List.mem_cons_self hc
        exact ⟨List.mem_cons_of_mem _ this.1, this.2⟩
    . have := ih (List.mem_cons_of_mem _ hw) hc
      exact ⟨List.mem_cons_of_mem _ this.1, this.2⟩

theorem splitOn_of_not_mem {s : Sym} {t : Text} (h : s ∉ t) : splitOn s t = [t] := by
  induction t with
  | nil => rfl
  | cons c t ih =>
    rw [List.mem_cons, not_or] at h
    rw [splitOn, if_neg (Ne.symm h.1), ih h.2]

theorem splitOn_join {s : Sym} {ts : List Text} (hne : ts ≠ []) (h : ∀ t ∈ ts, s ∉ t) :
    splitOn s (join [s] ts) = ts := by
  unfold join
  induction ts with
  | nil => contradiction
  | cons t ts ih =>
    rw [List.forall_mem_cons] at h
    cases ts with
    | nil => simpa using splitOn_of_not_mem h.1
    | cons u ts =>
      rw [List.intercalate_cons_cons, List.append_assoc, List.singleton_append]
      rw [splitOn_append_cons h.1, ih (List.cons_ne_nil u ts) h.2]

theorem join_splitOn (s : Sym) (t : Text) : join [s] (splitOn s t) = t := by
  unfold join
  induction t with
  | nil => simp [splitOn]
  | cons c t ih =>
    obtain ⟨w, ws, hsplit⟩ := List.exists_cons_of_ne_nil (splitOn_ne_nil s t)
    rw [hsplit] at ih
    rw [splitOn, hsplit]
    split
    . next hc => rw [List.intercalate_cons_cons, ih, hc, List.nil_append, List.singleton_append]
    . cases ws with
      | nil => simpa using ih
      | cons w' ws =>
        rw [List.intercalate_cons_cons] at ih ⊢
        rw [← ih]
        simp

theorem splitOn_append_of_not_mem {s : Sym} {t : Text} (h : s ∉ t) (front : Text) :
    splitOn s (front ++ s :: t) = splitOn s front ++ [t] := by
  induction front with
  | nil => simp [splitOn, splitOn_of_not_mem h]
  | cons c front ih =>
    obtain ⟨w, ws, hsplit⟩ := List.exists_cons_of_ne_nil (splitOn_ne_nil s front)
    rw [List.cons_append, splitOn, splitOn, ih, hsplit]
    split <;> rfl

/-- The lines of a text with a line feed between them. -/
def joinLines (ls : List Text) : Text := join [.char '\n'] ls

theorem fromBytes_joinLines {ls : List Text} (h : ∀ line ∈ ls, IsLine line) :
    FromBytes (joinLines ls) :=
  fromBytes_join (by decide) fun line hline => (h line hline).1

theorem splitOn_joinLines {ls : List Text} (hne : ls ≠ []) (h : ∀ line ∈ ls, IsLine line) :
    splitOn (.char '\n') (joinLines ls) = ls :=
  splitOn_join hne fun line hline => (h line hline).2

theorem joinLines_ne_nil {line : Text} (h : line ≠ []) (ls : List Text) :
    joinLines (line :: ls) ≠ [] := by
  unfold joinLines join
  cases ls with
  | nil => simpa using h
  | cons next ls => simp

theorem suffix_join (separator : Text) (ts : List Text) (last : Text) :
    last <:+ join separator (ts ++ [last]) := by
  unfold join
  induction ts with
  | nil => simp
  | cons t ts ih =>
    obtain ⟨next, more, hmore⟩ : ∃ next more, ts ++ [last] = next :: more :=
      List.exists_cons_of_ne_nil (by simp)
    rw [hmore] at ih
    rw [List.cons_append, hmore, List.intercalate_cons_cons]
    exact ih.trans (List.suffix_append _ _)

theorem eq_nil_of_joinLines {ls : List Text} (hlast : ∀ line ∈ ls.getLast?, line ≠ [])
    (h : joinLines ls = []) : ls = [] := by
  rcases List.eq_nil_or_concat ls with rfl | ⟨front, last, rfl⟩
  . rfl
  . rw [List.concat_eq_append] at h hlast
    have hsuffix := suffix_join [.char '\n'] front last
    rw [← joinLines, h] at hsuffix
    exact absurd (List.suffix_nil.1 hsuffix) (hlast last (by simp))

end Text

end Dvcs
