import Dvcs.Mercurial.Change
import Dvcs.Proofs.Commit.Facts
import Dvcs.Proofs.Mercurial.Extension

/-!
This module contains the way of a commit through the extension when it is known beforehand: the user
is taken apart where it was put together, and the commit that is read is the one that was shown.
-/

namespace Dvcs

namespace Mercurial

namespace Extension

open Text

section User

theorem isBlank_of_mem_encode {c : Sym} (hspace : c.isSpace = false)
    (hstray : ∀ b, c = .byte b → 128 ≤ b.toNat) {b : UInt8} (hb : b ∈ c.encode) :
    isBlank b = false := by
  rw [← Bool.not_eq_true]
  intro hblank
  have hascii : b.toNat < 128 := by
    simp only [isBlank, Bool.or_eq_true, Bool.and_eq_true, decide_eq_true_eq] at hblank
    rcases hblank with ⟨_, hle⟩ | rfl
    . exact Nat.lt_of_le_of_lt (UInt8.le_iff_toNat_le.1 hle) (by decide)
    . decide
  cases c with
  | byte b' =>
    obtain rfl : b = b' := List.mem_singleton.1 hb
    exact absurd (hstray b rfl) (Nat.not_le.2 hascii)
  | char c =>
    have hspaces : ∀ n < 128, isBlank (UInt8.ofNat n) = true →
        (Sym.char (Char.ofNat n)).isSpace = true := by decide
    -- the byte is the whole character
    have hchar := decode_utf8EncodeChar_append c []
    rw [utf8EncodeChar_of_ascii_mem hb hascii, ← utf8EncodeChar_ofNat hascii] at hchar
    rw [decode_utf8EncodeChar_append] at hchar
    rw [← (List.cons.inj hchar).1, hspaces b.toNat hascii (by rwa [UInt8.ofNat_toNat])] at hspace
    contradiction

theorem trim_append {bs behind : Bytes} (hfirst : ∀ b ∈ bs.head?, isBlank b = false)
    (hlast : ∀ b ∈ bs.getLast?, isBlank b = false) (hbehind : ∀ b ∈ behind, isBlank b = true) :
    trim (bs ++ behind) = bs := by
  unfold trim
  cases bs with
  | nil =>
    have hall : behind.dropWhile isBlank = [] := List.dropWhile_eq_nil_iff.2 hbehind
    rw [List.nil_append, hall]
    rfl
  | cons b bs =>
    rw [List.cons_append, List.dropWhile_cons_of_neg (by simp [hfirst b rfl])]
    rw [← List.cons_append, List.reverse_append]
    rw [List.dropWhile_append_of_pos fun c hc => hbehind c (List.mem_reverse.1 hc)]
    obtain ⟨c, rest, hrest⟩ := List.exists_cons_of_ne_nil
      (List.reverse_ne_nil_iff.2 (List.cons_ne_nil b bs))
    have hc : isBlank c = false := by
      apply hlast
      rw [← List.head?_reverse, hrest]
      rfl
    rw [hrest, List.dropWhile_cons_of_neg (by simp [hc]), ← hrest, List.reverse_reverse]

theorem trim_encode_append {t : Text} (ht : Commit.Facts.PartWellFormed t) {behind : Bytes}
    (hbehind : ∀ b ∈ behind, isBlank b = true) : trim (encode t ++ behind) = encode t := by
  obtain ⟨hfirst, hlast⟩ := ends_of_trim_eq_self ht.trimmed
  have hstray {c : Sym} (hc : c ∈ t) (b : UInt8) (heq : c = .byte b) : 128 ≤ b.toNat :=
    ht.line.1.highStrays b (heq ▸ hc)
  apply trim_append ?_ ?_ hbehind
  . intro b hb
    obtain ⟨c, hc, hmem⟩ := exists_head?_of_encode hb
    exact isBlank_of_mem_encode (hfirst c hc) (hstray (List.mem_of_mem_head? hc)) hmem
  . intro b hb
    obtain ⟨c, hc, hmem⟩ := exists_getLast?_of_encode hb
    exact isBlank_of_mem_encode (hlast c hc) (hstray (List.mem_of_mem_getLast? hc)) hmem

theorem cutFirst?_append {b : UInt8} {bs : Bytes} (h : b ∉ bs) (rest : Bytes) :
    cutFirst? b (bs ++ b :: rest) = some (bs, rest) := by
  induction bs with
  | nil => simp [cutFirst?]
  | cons c bs ih =>
    rw [List.mem_cons, not_or] at h
    rw [List.cons_append, cutFirst?, if_neg (Ne.symm h.1), ih h.2]
    rfl

theorem cutFirst?_of_not_mem {b : UInt8} {bs : Bytes} (h : b ∉ bs) : cutFirst? b bs = none := by
  induction bs with
  | nil => rfl
  | cons c bs ih =>
    rw [List.mem_cons, not_or] at h
    rw [cutFirst?, if_neg (Ne.symm h.1), ih h.2]
    rfl

theorem cutLast?_append (b : UInt8) (bs : Bytes) : cutLast? b (bs ++ [b]) = some (bs, []) := by
  unfold cutLast?
  rw [List.reverse_append]
  have hfirst := cutFirst?_append (List.not_mem_nil (a := b)) bs.reverse
  rw [List.nil_append] at hfirst
  rw [List.reverse_singleton, List.singleton_append, hfirst]
  simp

theorem encode_user {name email : Text} (h : email ≠ []) :
    encode (user ⟨name, some email⟩) = encode name ++ [32] ++ 60 :: (encode email ++ [62]) := by
  have htext : user ⟨name, some email⟩ = name ++ " <" ++ email ++ ">" := by
    unfold user Author.toText
    cases email with
    | nil => contradiction
    | cons c email => rfl
  have hopening : encode " <" = [32, 60] := rfl
  have hclosing : encode ">" = [62] := rfl
  rw [htext, encode_append, encode_append, encode_append, hopening, hclosing]
  simp

theorem not_mem_user {a : Author} (hname : Commit.Facts.PartWellFormed a.name)
    (hemail : ∀ email ∈ a.email, email ≠ [] ∧ Commit.Facts.PartWellFormed email) :
    10 ∉ encode (user a) := by
  obtain ⟨name, email⟩ := a
  cases email with
  | none => exact hname.line.not_mem_encode
  | some email =>
    obtain ⟨hne, hpart⟩ := hemail email rfl
    rw [encode_user hne]
    simp only [List.mem_append, List.mem_cons, List.not_mem_nil, not_or, or_false]
    exact ⟨⟨hname.line.not_mem_encode, by decide⟩, by decide, hpart.line.not_mem_encode, by decide⟩

theorem splitUser_user {a : Author} (hname : Commit.Facts.PartWellFormed a.name)
    (hunmarked : Sym.char '<' ∉ a.name)
    (hemail : ∀ email ∈ a.email, email ≠ [] ∧ Commit.Facts.PartWellFormed email) :
    splitUser (encode (user a)) = (encode a.name, encode (a.email.getD [])) := by
  have hopening : 60 ∉ encode a.name :=
    fun hmem => hunmarked ((mem_encode hname.line.1.highStrays (c := '<') (by decide)).1 hmem)
  have htrim {t : Text} (ht : Commit.Facts.PartWellFormed t) : trim (encode t) = encode t := by
    have hnone : trim (encode t ++ []) = encode t := trim_encode_append ht nofun
    rwa [List.append_nil] at hnone
  obtain ⟨name, email⟩ := a
  unfold splitUser
  cases email with
  | none =>
    have huser : user ⟨name, none⟩ = name := rfl
    rw [huser, cutFirst?_of_not_mem hopening]
    dsimp only
    rw [htrim hname]
    rfl
  | some email =>
    obtain ⟨hne, hpart⟩ := hemail email rfl
    have hblank : 60 ∉ encode name ++ [32] := by
      rw [List.mem_append, not_or]
      exact ⟨hopening, by decide⟩
    rw [encode_user hne, cutFirst?_append hblank]
    dsimp only
    rw [cutLast?_append]
    dsimp only
    rw [trim_encode_append hname (List.forall_mem_singleton.2 rfl), htrim hpart]
    rfl

end User

theorem isNode_encode_hex {hash : Hash} (h : hash.hex.length = 40) : IsNode (encode hash.hex) := by
  have hbytes : encode hash.hex = hash.hex.flatMap Sym.encode := rfl
  have hone {s : Sym} (hs : s ∈ hash.hex) :
      ∃ b : UInt8, s.encode = [b] ∧
        (48 ≤ b.toNat ∧ b.toNat ≤ 57 ∨ 97 ≤ b.toNat ∧ b.toNat ≤ 102) := by
    obtain ⟨c, rfl, hc⟩ := Hash.toNat_of_isHexDigit (Hash.isHexDigit_of_mem hs)
    refine ⟨UInt8.ofNat c.toNat, utf8EncodeChar_ascii (by omega), ?_⟩
    have hnat : (UInt8.ofNat c.toNat).toNat = c.toNat := by
      rw [UInt8.toNat_ofNat']
      omega
    rwa [hnat]
  constructor
  . have hlengths : hash.hex.map (fun s => s.encode.length) = hash.hex.map fun _ => 1 := by
      apply List.map_congr_left
      intro s hs
      obtain ⟨b, hb, _⟩ := hone hs
      rw [hb]
      rfl
    rw [hbytes, List.length_flatMap, hlengths]
    simpa using h
  . intro b hb
    obtain ⟨s, hs, hmem⟩ := List.mem_flatMap.1 hb
    obtain ⟨b', heq, hrange⟩ := hone hs
    rw [heq, List.mem_singleton] at hmem
    rw [hmem]
    exact hrange

/-- The chunks of a diff that shows patches. -/
def shownChanges (patches : List Patch) : Bytes :=
  Handle.ended ((patches.flatMap Patch.render).map encode)

/-- How Mercurial presents a commit. A first commit has the null hash as its parent. -/
structure ShowsFacts (host : Host) (c : Changeset) (f : Commit.Facts) : Prop where
  hex : c.hex = encode f.hash.hex
  parents : c.parents = f.bases.map fun base => encode base.hex
  user : c.user = encode (user f.author)
  description : c.description = encode (joinLines f.message)
  seconds : c.seconds = f.timestamp.seconds
  changes : f.bases.Forall₂ (fun base patches =>
    (host.diff (encode base.hex) (some c.hex)).flatten = shownChanges patches) f.changes

variable {host : Host} {c : Changeset} {f : Commit.Facts}

theorem diffLines_of_shows (hf : f.WellFormed) {patches : List Patch}
    (hpatches : patches ∈ f.changes) {source target : Bytes}
    (h : (host.diff source (some target)).flatten = shownChanges patches) :
    diffLines host source target = patches.flatMap Patch.render := by
  unfold diffLines
  rw [h]
  exact Handle.linesOf_ended_encode (Commit.Facts.isLine_of_mem_render hf hpatches)

theorem message_of_shows (hf : f.WellFormed) (h : ShowsFacts host c f) :
    c.message = f.message.map encode := by
  have hbytes : c.description = [10].intercalate (f.message.map encode) := by
    have hjoin := encode_join (c := '\n') (by decide) f.message
    rw [h.description]
    exact hjoin
  unfold Changeset.message
  simp only [List.isEmpty_iff]
  split
  . next hnil =>
    rw [h.description] at hnil
    rw [eq_nil_of_joinLines hf.last (encode_eq_nil hnil)]
    rfl
  . next hne =>
    have hunbroken : ∀ line ∈ f.message.map encode, 10 ∉ line :=
      List.forall_mem_map.2 fun line hline => (hf.lines line hline).not_mem_encode
    rw [hbytes] at hne ⊢
    apply List.splitOn_intercalate 10 hunbroken
    intro heq
    rw [heq] at hne
    contradiction

theorem map_decode_message_of_shows (hf : f.WellFormed) (h : ShowsFacts host c f) :
    c.message.map decode = f.message := by
  rw [message_of_shows hf h, List.map_map]
  conv => rhs; rw [← List.map_id f.message]
  exact List.map_congr_left fun line hline => (hf.lines line hline).1

theorem decode_encode_hex (hash : Hash) : decode (encode hash.hex) = hash.hex :=
  decode_encode_of_plain hash.plain_hex

theorem digits_of_mem_bases (hf : f.WellFormed) {base : Hash} (hbase : base ∈ f.bases) :
    base.hex.length = 40 := by
  unfold Commit.Facts.bases at hbase
  split at hbase
  . rw [List.mem_singleton.1 hbase]
    rfl
  . exact hf.digits base (List.mem_cons_of_mem _ hbase)

theorem forall_parents (hf : f.WellFormed) (h : ShowsFacts host c f) {P : Bytes → Prop}
    (hP : ∀ (base : Hash) (patches : List Patch), patches ∈ f.changes → IsNode (encode base.hex) →
      (host.diff (encode base.hex) (some c.hex)).flatten = shownChanges patches →
        P (encode base.hex)) : ∀ parent ∈ c.parents, P parent := by
  intro parent hparent
  rw [h.parents] at hparent
  obtain ⟨base, hbase, rfl⟩ := List.mem_map.1 hparent
  obtain ⟨patches, hpatches, hshown⟩ := exists_of_mem_right (List.Forall₂.flip h.changes) hbase
  exact hP base patches hpatches (isNode_encode_hex (digits_of_mem_bases hf hbase)) hshown

theorem wellFormed_of_shows (hf : f.WellFormed) (h : ShowsFacts host c f) : c.WellFormed host where
  hex := by
    rw [h.hex]
    exact isNode_encode_hex (hf.digits f.hash List.mem_cons_self)
  parents := by
    rw [h.parents, ne_eq, List.map_eq_nil_iff]
    exact f.bases_ne_nil
  nodes := forall_parents hf h fun _ _ _ hnode _ => hnode
  user := by
    rw [h.user]
    exact not_mem_user hf.name hf.email
  message := by
    rw [message_of_shows hf h, List.length_map]
    exact hf.message
  seconds := by
    rw [h.seconds]
    exact Instant.seconds_bounds hf.timestamp
  complete := forall_parents hf h fun _ patches _ _ hshown => by
    rw [hshown]
    exact Handle.complete_ended _
  quiet := forall_parents hf h fun _ patches hpatches _ hshown line hline => by
    rw [diffLines_of_shows hf hpatches hshown] at hline
    obtain ⟨p, _, hmem⟩ := List.mem_flatMap.1 hline
    exact Commit.atRecord_of_mem_render hmem
  accepted := forall_parents hf h fun _ patches hpatches _ hshown => by
    rw [diffLines_of_shows hf hpatches hshown]
    obtain ⟨r, hread⟩ := hf.read patches hpatches
    exact ⟨patches, r, hread⟩

theorem forall₂_presentsDiff (hf : f.WellFormed) (hhex : c.hex = encode f.hash.hex)
    {bases : List Hash} {changes : List (List Patch)}
    (hchanges : ∀ patches ∈ changes, patches ∈ f.changes)
    (h : bases.Forall₂ (fun base patches =>
      (host.diff (encode base.hex) (some c.hex)).flatten = shownChanges patches) changes) :
    (bases.map fun base => encode base.hex).Forall₂ (PresentsDiff host c)
      (List.zipWith f.diff bases changes) := by
  induction h with
  | nil => exact .nil
  | @cons base patches bases changes hshown _ ih =>
    rw [List.forall_mem_cons] at hchanges
    refine .cons ⟨?_, ?_, ?_⟩ (ih hchanges.2)
    . exact (decode_encode_hex base).symm
    . rw [hhex, decode_encode_hex]
      rfl
    . rw [diffLines_of_shows hf hchanges.1 hshown]
      exact hf.read patches hchanges.1

theorem presents_of_shows (hf : f.WellFormed) (h : ShowsFacts host c f) :
    Presents host c f.commit := by
  have hsplit := splitUser_user hf.name hf.unmarked hf.email
  constructor
  . rw [h.hex, decode_encode_hex]
    rfl
  . rw [h.parents, List.map_map]
    exact List.map_congr_left fun base _ => (decode_encode_hex base).symm
  . rw [h.user, hsplit]
    exact hf.name.line.1.symm
  . have hemail : f.author.email ≠ some [] := fun heq => (hf.email [] heq).1 rfl
    have hbytes : decode (encode (f.author.email.getD [])) = f.author.email.getD [] := by
      cases heq : f.author.email with
      | none => exact decode_nil
      | some email => exact (hf.email email heq).2.line.1
    rw [h.user, hsplit, hbytes, Metadata.email?_getD hemail]
    rfl
  . rfl
  . rw [h.seconds]
    exact Instant.micros_of_isWhole hf.timestamp
  . rw [← map_decode_message, map_decode_message_of_shows hf h]
    rfl
  . rw [h.parents]
    exact forall₂_presentsDiff hf h.hex (fun _ hmem => hmem) h.changes

theorem presents_of_forall₂_shows {contexts : List Changeset} {fs : List Commit.Facts}
    (hfs : ∀ f ∈ fs, f.WellFormed) (h : contexts.Forall₂ (ShowsFacts host) fs) :
    (∀ c ∈ contexts, c.WellFormed host) ∧
      contexts.Forall₂ (Presents host) (fs.map Commit.Facts.commit) := by
  induction h with
  | nil => exact ⟨nofun, .nil⟩
  | cons hshows _ ih =>
    rw [List.forall_mem_cons] at hfs
    obtain ⟨hcontexts, hpresents⟩ := ih hfs.2
    rw [List.forall_mem_cons]
    exact ⟨⟨wellFormed_of_shows hfs.1 hshows, hcontexts⟩,
      .cons (presents_of_shows hfs.1 hshows) hpresents⟩

theorem readAll_of_shows {o : Options} (hdiffs : o.noDiffs = false) {fs : List Commit.Facts}
    (hfs : ∀ f ∈ fs, f.WellFormed) (h : (selected host o).Forall₂ (ShowsFacts host) fs) :
    ∃ n, Commit.readAll (.ofLines (Handle.linesOf (log host o).written)) =
      { items := fs.map Commit.Facts.commit, reader := ⟨[], n, true⟩ } := by
  obtain ⟨hselected, hpresents⟩ := presents_of_forall₂_shows hfs h
  obtain ⟨hframed, hshows⟩ := framed_shows_of_presents hselected hpresents
  rw [written_log_eq_flatMap, hdiffs, (linesOf_writeCommits hselected hpresents).1]
  exact ⟨_, Commit.readAll_encodeWith hframed hshows⟩

end Extension

end Mercurial

end Dvcs
