import Dvcs.Mercurial.PathSettings
import Dvcs.Proofs.Text.Cut
import Dvcs.Proofs.Text.Lines
import Dvcs.Proofs.Text.Space
import Dvcs.Proofs.World

/-!
This module contains the reader's view of a configuration file and what setting an alias changes in
it. Setting an alias is made of two steps: all entries of the alias are dropped, then the new ones
are put behind the first header of the section. Everything else follows from this.
-/

namespace Dvcs

namespace Mercurial

namespace PathSettings

open Text

/-- The name between the brackets of a line that starts a section. -/
def sectionName? (line : Text) : Option Text := (after? "[" line.trim).bind (before? "]")

/-- The key and the value of an entry. -/
def pair? (line : Text) : Option (Text × Text) :=
  (cut? "=" line.trim).map fun (key, value) => (key.trim, value.trim)

/-- The section of the aliases. -/
def aliases : Option Text := some "paths"

/-- Every line together with the section that it stands in, `current` being the one in front. -/
def located (current : Option Text) : List Text → List (Option Text × Text)
  | [] => []
  | line :: rest =>
    ((sectionName? line).or current, line) :: located ((sectionName? line).or current) rest

/-- The value of a line that is an entry with a certain key in a certain section. -/
def found? (name : Option Text) (key : Text) (placed : Option Text × Text) : Option Text :=
  if placed.1 = name ∧ sectionName? placed.2 = none then
    ((pair? placed.2).filter (·.1 = key)).map (·.2)
  else none

/-- The value of a key in a section; the last entry wins. -/
def value? (lines : List Text) (name : Option Text) (key : Text) : Option Text :=
  ((located none lines).filterMap (found? name key)).getLast?

/-- Whether a line is an entry of a remote. -/
def isOwn (remote : Text) (placed : Option Text × Text) : Bool :=
  placed.1 = aliases && (sectionName? placed.2).isNone &&
    (key? placed.2).any (ownKeys remote).contains

/-- The lines that are no entries of a remote. -/
def otherLines (remote : Text) (current : Option Text) (lines : List Text) : List Text :=
  ((located current lines).filter (!isOwn remote ·)).map (·.2)

/-- The entries of a remote, as they are written. -/
def ownLines (remote : Text) (lines : List Text) : List Text :=
  ((located none lines).filter (isOwn remote ·)).map (·.2)

theorem sectionName?_eq_some_iff {line name : Text} :
    sectionName? line = some name ↔ line.trim = "[" ++ name ++ "]" := by
  unfold sectionName?
  rw [Option.bind_eq_some_iff]
  constructor
  . rintro ⟨rest, hrest, hname⟩
    rw [eq_append_of_after? hrest, before?_eq_some_iff.1 hname, List.append_assoc]
  . intro h
    rw [List.append_assoc] at h
    exact ⟨name ++ "]", after?_eq_some_iff.2 h, before?_append name "]"⟩

theorem isHeader_eq (line : Text) : isHeader line = (sectionName? line).isSome := by
  unfold isHeader startsWith endsWith
  rw [Bool.eq_iff_iff, Bool.and_eq_true]
  constructor
  . rintro ⟨hfirst, hlast⟩
    obtain ⟨rest, hrest⟩ := Option.isSome_iff_exists.1 hfirst
    obtain ⟨front, hfront⟩ := Option.isSome_iff_exists.1 hlast
    have hopen := eq_append_of_after? hrest
    have hclose := before?_eq_some_iff.1 hfront
    rw [hopen] at hclose
    cases front with
    | nil =>
      -- one bracket cannot be the first and the last symbol
      cases hclose
    | cons c front =>
      have hrest : rest = front ++ "]" := (List.cons.inj hclose).2
      rw [hrest, ← List.append_assoc] at hopen
      rw [sectionName?_eq_some_iff.2 hopen, Option.isSome_some]
  . intro h
    obtain ⟨name, hname⟩ := Option.isSome_iff_exists.1 h
    rw [sectionName?_eq_some_iff] at hname
    rw [hname]
    refine ⟨?_, by rw [before?_append, Option.isSome_some]⟩
    rw [List.append_assoc, after?_append, Option.isSome_some]

theorem key?_eq (line : Text) : key? line = (pair? line).map (·.1) := by
  simp only [key?, pair?, Option.map_map]
  rfl

theorem trim_eq_sectionHeader {line : Text} :
    (line.trim == sectionHeader) = true ↔ sectionName? line = aliases := by
  rw [aliases, sectionName?_eq_some_iff, beq_iff_eq]
  rfl

/-! ## Lines in their sections -/

section

variable {remote line : Text} {current : Option Text}

theorem map_snd_located (current : Option Text) (lines : List Text) :
    (located current lines).map (·.2) = lines := by
  induction lines generalizing current with
  | nil => rfl
  | cons line lines ih => rw [located, List.map_cons, ih]

theorem located_append_header {name : Text} (h : sectionName? line = some name)
    (current : Option Text) (front back : List Text) :
    located current (front ++ line :: back) =
      located current front ++ (some name, line) :: located (some name) back := by
  induction front generalizing current with
  | nil => simp only [List.nil_append, located, h, Option.some_or]
  | cons other front ih =>
    rw [List.cons_append, located, ih]
    rfl

theorem located_cons_of_none (h : sectionName? line = none) (current : Option Text)
    (back : List Text) :
    located current (line :: back) = (current, line) :: located current back := by
  rw [located, h, Option.none_or]

theorem isOwn_eq_false_of_ne {placed : Option Text × Text} (h : placed.1 ≠ aliases) :
    isOwn remote placed = false := by
  simp [isOwn, h]

theorem isOwn_entry (h : sectionName? line = none) :
    isOwn remote (current, line) =
      ((current == aliases) && (key? line).any (ownKeys remote).contains) := by
  simp [isOwn, h, Bool.beq_eq_decide_eq]

theorem isOwn_header {name : Text} (h : sectionName? line = some name) :
    isOwn remote (current, line) = false := by
  simp [isOwn, h]

theorem located_otherLines (remote : Text) (current : Option Text) (lines : List Text) :
    located current (otherLines remote current lines) =
      (located current lines).filter (!isOwn remote ·) := by
  induction lines generalizing current with
  | nil => rfl
  | cons line lines ih =>
    unfold otherLines at ih ⊢
    rw [located, List.filter_cons]
    cases hsection : sectionName? line with
    | some name =>
      rw [isOwn_header hsection]
      simp [located, hsection, ih]
    | none =>
      rw [Option.none_or]
      cases hown : isOwn remote (current, line) with
      | true =>
        -- what is dropped starts no section, so the lines behind it stay where they are
        simpa using ih current
      | false => simp [located, hsection, ih]

theorem otherLines_otherLines (remote : Text) (current : Option Text) (lines : List Text) :
    otherLines remote current (otherLines remote current lines) =
      otherLines remote current lines := by
  rw [otherLines, located_otherLines, List.filter_filter]
  simp only [Bool.and_self]
  rfl

theorem fst_ne_aliases {lines : List Text} (hcurrent : current ≠ aliases)
    (h : ∀ line ∈ lines, sectionName? line ≠ aliases) :
    ∀ placed ∈ located current lines, placed.1 ≠ aliases := by
  induction lines generalizing current with
  | nil => nofun
  | cons line lines ih =>
    rw [List.forall_mem_cons] at h
    have hhere : (sectionName? line).or current ≠ aliases := by
      cases hsection : sectionName? line with
      | none => exact hcurrent
      | some name =>
        rw [hsection] at h
        exact h.1
    rw [located, List.forall_mem_cons]
    exact ⟨hhere, ih hhere h.2⟩

theorem filter_of_not_own {placed : List (Option Text × Text)}
    (h : ∀ there ∈ placed, isOwn remote there = false) :
    placed.filter (!isOwn remote ·) = placed := by
  apply List.filter_eq_self.2
  intro there hthere
  rw [h there hthere]
  rfl

theorem filter_own_of_not_own {placed : List (Option Text × Text)}
    (h : ∀ there ∈ placed, isOwn remote there = false) : placed.filter (isOwn remote ·) = [] := by
  rw [List.filter_eq_nil_iff]
  intro there hthere
  rw [h there hthere]
  nofun

theorem filter_located {lines : List Text} (h : ∀ line ∈ lines, sectionName? line ≠ aliases) :
    (located none lines).filter (!isOwn remote ·) = located none lines := by
  have hnone : none ≠ aliases := (Option.some_ne_none _).symm
  exact filter_of_not_own fun placed hplaced =>
    isOwn_eq_false_of_ne (fst_ne_aliases hnone h placed hplaced)

end

/-! ## The two steps of setting an alias -/

section

variable {remote pull line : Text} {push : Option Text} {front lines : List Text}

theorem place_placed (remote : Text) (new : List Text) (current : Option Text) (lines : List Text) :
    place (ownKeys remote) new true (current == aliases) lines =
      (otherLines remote current lines, true) := by
  -- `inside` is always the question whether the current section is that of the aliases
  induction lines generalizing current with
  | nil => rfl
  | cons line lines ih =>
    unfold otherLines at ih ⊢
    rw [place, located, List.filter_cons, isHeader_eq]
    cases hsection : sectionName? line with
    | some name =>
      have hinside : (line.trim == sectionHeader) = (some name == aliases) := by
        rw [Bool.eq_iff_iff, trim_eq_sectionHeader, hsection, beq_iff_eq]
      simp [hinside, ih, isOwn_header hsection]
    | none =>
      rw [Option.none_or, isOwn_entry hsection, ih]
      cases (current == aliases) && (key? line).any (ownKeys remote).contains <;> rfl

theorem place_of_forall_ne (own new : List Text)
    (h : ∀ line ∈ front, sectionName? line ≠ aliases) (rest : List Text) :
    place own new false false (front ++ rest) =
      (front ++ (place own new false false rest).1, (place own new false false rest).2) := by
  induction front with
  | nil => rfl
  | cons line front ih =>
    rw [List.forall_mem_cons] at h
    have hinside : (line.trim == sectionHeader) = false :=
      Bool.eq_false_iff.2 (trim_eq_sectionHeader.not.2 h.1)
    rw [List.cons_append, place, hinside]
    cases isHeader line <;> simp [ih h.2]

theorem update_of_forall_ne (h : ∀ line ∈ lines, sectionName? line ≠ aliases) :
    update remote pull push lines = lines ++ sectionHeader :: entries remote pull push := by
  have hplace := place_of_forall_ne (ownKeys remote) (entries remote pull push) h []
  rw [List.append_nil] at hplace
  simp [update, hplace, place]

theorem update_append_header (h : ∀ line ∈ front, sectionName? line ≠ aliases)
    (hline : sectionName? line = aliases) (back : List Text) :
    update remote pull push (front ++ line :: back) =
      front ++ line :: (entries remote pull push ++ otherLines remote aliases back) := by
  have hinside : (line.trim == sectionHeader) = true := trim_eq_sectionHeader.2 hline
  have hheader : isHeader line = true := by
    rw [isHeader_eq, hline]
    rfl
  have hplaced : place (ownKeys remote) (entries remote pull push) true true back =
      (otherLines remote aliases back, true) := place_placed remote _ aliases back
  simp [update, place_of_forall_ne _ _ h, place, hheader, hinside, hplaced]

/-- Either there is no section of the aliases, or it has a first header. -/
theorem exists_header (lines : List Text) :
    (∀ line ∈ lines, sectionName? line ≠ aliases) ∨
      ∃ front line back, lines = front ++ line :: back ∧
        (∀ line ∈ front, sectionName? line ≠ aliases) ∧ sectionName? line = aliases := by
  cases hfind : lines.find? (sectionName? · = aliases) with
  | none =>
    left
    simpa using hfind
  | some line =>
    right
    obtain ⟨hline, front, back, rfl, hfront⟩ := List.find?_eq_some_iff_append.1 hfind
    exact ⟨front, line, back, rfl, by simpa using hfront, by simpa using hline⟩

end

/-! ## The entries of an alias -/

/-- A name that a reader takes for the key of an entry. -/
structure IsKey (key : Text) : Prop where
  ne_nil : key ≠ []
  trimmed : key.trim = key
  plain : .char '=' ∉ key
  head : key.head? ≠ some (.char '[')

theorem IsKey.append {key suffix : Text} (h : IsKey key) (hplain : .char '=' ∉ suffix)
    (hlast : ∃ c ∈ suffix.getLast?, c.isSpace = false) : IsKey (key ++ suffix) := by
  obtain ⟨c, hc, hspace⟩ := hlast
  have hhead : (key ++ suffix).head? = key.head? := List.head?_append_of_ne_nil key h.ne_nil
  refine ⟨by simp [h.ne_nil], ?_, ?_, hhead ▸ h.head⟩
  . apply trim_eq_self_of_ends
    . rw [hhead]
      exact (ends_of_trim_eq_self h.trimmed).1
    . intro d hd
      rw [List.getLast?_append, hc] at hd
      cases hd
      exact hspace
  . rw [List.mem_append, not_or]
    exact ⟨h.plain, hplain⟩

theorem IsKey.pushKey {remote : Text} (h : IsKey remote) : IsKey (pushKey remote) :=
  h.append (by decide) ⟨.char 'h', rfl, rfl⟩

theorem trim_entry {key value : Text} (hkey : IsKey key) (hvalue : value.trim = value) :
    ∃ rest : Text, (key ++ " = " ++ value).trim = key ++ .char ' ' :: .char '=' :: rest ∧
      rest.trim = value := by
  have hfirst (rest : Text) : ∀ c ∈ (key ++ rest).head?, c.isSpace = false := by
    rw [List.head?_append_of_ne_nil key hkey.ne_nil]
    exact (ends_of_trim_eq_self hkey.trimmed).1
  cases value with
  | nil =>
    -- the blank behind the sign is trimmed away
    refine ⟨[], ?_, rfl⟩
    have hline : key ++ (" = " : Text) ++ [] = key ++ (" =" : Text) ++ [.char ' '] := by
      simp [ofString]
    rw [hline, trim_concat_of_isSpace rfl]
    apply trim_eq_self_of_ends (hfirst _)
    intro c hc
    rw [List.getLast?_append] at hc
    cases hc
    rfl
  | cons v value =>
    refine ⟨.char ' ' :: v :: value, ?_, ?_⟩
    . have hline : key ++ " = " ++ v :: value =
          key ++ .char ' ' :: .char '=' :: .char ' ' :: v :: value := by simp [ofString]
      rw [hline]
      apply trim_eq_self_of_ends (hfirst _)
      intro c hc
      apply (ends_of_trim_eq_self hvalue).2
      simpa [List.getLast?_append] using hc
    . rw [trim_cons_of_isSpace (by rfl), hvalue]

theorem pair?_entry {key value : Text} (hkey : IsKey key) (hvalue : value.trim = value) :
    pair? (key ++ " = " ++ value) = some (key, value) := by
  obtain ⟨rest, hline, hrest⟩ := trim_entry hkey hvalue
  have hfront : .char '=' ∉ key ++ [.char ' '] := by simp [hkey.plain]
  have hcut : cut? "=" (key ++ .char ' ' :: .char '=' :: rest) =
      some (key ++ [.char ' '], rest) := by
    have := cut?_append_cons hfront rest
    rwa [List.append_assoc] at this
  have hblank : trim (key ++ [.char ' ']) = key := by
    rw [trim_concat_of_isSpace rfl, hkey.trimmed]
  simp only [pair?, hline, hcut, Option.map_some, hblank, hrest]

theorem sectionName?_entry {key value : Text} (hkey : IsKey key) (hvalue : value.trim = value) :
    sectionName? (key ++ " = " ++ value) = none := by
  obtain ⟨rest, hline, hrest⟩ := trim_entry hkey hvalue
  obtain ⟨c, key, rfl⟩ := List.exists_cons_of_ne_nil hkey.ne_nil
  have hc : .char '[' ≠ c := fun h => hkey.head (congrArg some h.symm)
  rw [sectionName?, hline, List.cons_append, ofString]
  simp [after?, hc]

section

variable {remote pull : Text} {push : Option Text}

/-- An alias has been set and nothing else has changed. -/
structure Sets (remote pull : Text) (push : Option Text) (before after : List Text) : Prop where
  own : ownLines remote after = entries remote pull push
  pull : value? after aliases remote = some pull
  push : value? after aliases (pushKey remote) = some (push.getD [])
  pushurl : value? after aliases (remote ++ ":pushurl") = none
  /-- At most a header is new. -/
  others : otherLines remote none after = otherLines remote none before ++
    if ∃ line ∈ before, sectionName? line = aliases then [] else [sectionHeader]
  /-- Every other entry is read as before. -/
  values : ∀ name key, ¬ (name = aliases ∧ key ∈ ownKeys remote) →
    value? after name key = value? before name key

/-- What goes into an alias: locations without blanks around them. -/
structure IsAlias (remote pull : Text) (push : Option Text) : Prop where
  key : IsKey remote
  pull : pull.trim = pull
  push : ∀ t ∈ push, t.trim = t

theorem IsAlias.trim_getD (h : IsAlias remote pull push) : (push.getD []).trim = push.getD [] := by
  cases push with
  | none => rfl
  | some t => exact h.push t rfl

theorem sectionName?_of_mem_entries (h : IsAlias remote pull push) :
    ∀ line ∈ entries remote pull push, sectionName? line = none := by
  simp only [entries, List.forall_mem_cons]
  exact ⟨sectionName?_entry h.key h.pull, sectionName?_entry h.key.pushKey h.trim_getD, nofun⟩

theorem located_append_of_section? {new : List Text} (h : ∀ line ∈ new, sectionName? line = none)
    (current : Option Text) (back : List Text) :
    located current (new ++ back) = new.map (current, ·) ++ located current back := by
  induction new with
  | nil => rfl
  | cons line new ih =>
    rw [List.forall_mem_cons] at h
    rw [List.cons_append, located_cons_of_none h.1, ih h.2]
    rfl

/-- The new entries stand together in their section, and around them is what was there before. -/
theorem exists_located_update (h : IsAlias remote pull push) (lines : List Text) :
    ∃ front back,
      located none (update remote pull push lines) =
        front ++ (entries remote pull push).map (aliases, ·) ++ back ∧
      front ++ back = (located none lines).filter (!isOwn remote ·) ++
        if ∃ line ∈ lines, sectionName? line = aliases then [] else [(aliases, sectionHeader)] := by
  have hnew := located_append_of_section? (sectionName?_of_mem_entries h) aliases
  rcases exists_header lines with hnone | ⟨front, line, back, rfl, hfront, hline⟩
  . have hheader : sectionName? sectionHeader = some "paths" := by rfl
    refine ⟨located none lines ++ [(aliases, sectionHeader)], [], ?_, ?_⟩
    . have := hnew []
      rw [List.append_nil] at this
      rw [update_of_forall_ne hnone, located_append_header hheader, ← aliases, this]
      simp [located]
    . rw [filter_located hnone, if_neg (by simpa using hnone), List.append_nil]
  . refine ⟨located none front ++ [(aliases, line)],
      (located aliases back).filter (!isOwn remote ·), ?_, ?_⟩
    . rw [update_append_header hfront hline, located_append_header hline, ← aliases, hnew,
        located_otherLines]
      simp
    . rw [located_append_header hline, List.filter_append, filter_located hfront,
        List.filter_cons_of_pos (by rw [isOwn_header hline]; rfl), if_pos ⟨line, by simp, hline⟩]
      simp [aliases]

theorem isOwn_of_found? {name : Option Text} {key value : Text} {placed : Option Text × Text}
    (h : found? name key placed = some value) :
    isOwn remote placed = true ↔ name = aliases ∧ key ∈ ownKeys remote := by
  obtain ⟨there, line⟩ := placed
  unfold found? at h
  split at h
  . next hplace =>
    obtain ⟨rfl, hsection⟩ := hplace
    obtain ⟨⟨key', value'⟩, hentry, rfl⟩ := Option.map_eq_some_iff.1 h
    rw [Option.filter_eq_some_iff, decide_eq_true_eq] at hentry
    obtain ⟨hentry, rfl⟩ := hentry
    rw [isOwn_entry hsection, key?_eq, hentry]
    simp
  . contradiction

theorem found?_of_not_own {key : Text} (hkey : key ∈ ownKeys remote)
    {placed : Option Text × Text} (h : isOwn remote placed = false) :
    found? aliases key placed = none := by
  cases hfound : found? aliases key placed with
  | none => rfl
  | some value =>
    rw [(isOwn_of_found? hfound).2 ⟨rfl, hkey⟩] at h
    contradiction

theorem filterMap_of_not_own {key : Text} (hkey : key ∈ ownKeys remote)
    {placed : List (Option Text × Text)} (h : ∀ there ∈ placed, isOwn remote there = false) :
    placed.filterMap (found? aliases key) = [] :=
  List.filterMap_eq_nil_iff.2 fun there hthere => found?_of_not_own hkey (h there hthere)

theorem found?_of_own {name : Option Text} {key : Text}
    (hother : ¬ (name = aliases ∧ key ∈ ownKeys remote)) {placed : Option Text × Text}
    (h : isOwn remote placed = true) : found? name key placed = none := by
  cases hfound : found? name key placed with
  | none => rfl
  | some value => exact absurd ((isOwn_of_found? hfound).1 h) hother

theorem filterMap_filter_own {name : Option Text} {key : Text}
    (hother : ¬ (name = aliases ∧ key ∈ ownKeys remote)) (placed : List (Option Text × Text)) :
    (placed.filter (!isOwn remote ·)).filterMap (found? name key) =
      placed.filterMap (found? name key) := by
  rw [List.filterMap_filter]
  congr 1
  funext there
  cases hown : isOwn remote there with
  | true => rw [found?_of_own hother hown]; rfl
  | false => rfl

theorem found?_entry {key value : Text} (hkey : IsKey key) (hvalue : value.trim = value)
    (other : Text) :
    found? aliases other (aliases, key ++ " = " ++ value) =
      if key = other then some value else none := by
  rw [found?, if_pos ⟨rfl, sectionName?_entry hkey hvalue⟩, pair?_entry hkey hvalue]
  split <;> simp_all [Option.filter]

theorem isOwn_entries (h : IsAlias remote pull push) :
    ∀ line ∈ entries remote pull push, isOwn remote (aliases, line) = true := by
  have hown {key value : Text} (hkey : IsKey key) (hvalue : value.trim = value)
      (hmem : key ∈ ownKeys remote) : isOwn remote (aliases, key ++ " = " ++ value) = true := by
    have hfound := found?_entry hkey hvalue key
    rw [if_pos rfl] at hfound
    exact (isOwn_of_found? hfound).2 ⟨rfl, hmem⟩
  simp only [entries, List.forall_mem_cons]
  exact ⟨hown h.key h.pull (by simp [ownKeys]),
    hown h.key.pushKey h.trim_getD (by simp [ownKeys]), nofun⟩

theorem filter_entries (h : IsAlias remote pull push) :
    ((entries remote pull push).map (aliases, ·)).filter (!isOwn remote ·) = [] := by
  rw [List.filter_eq_nil_iff, List.forall_mem_map]
  intro line hline
  rw [isOwn_entries h line hline]
  nofun

theorem isOwn_eq_false_of_mem {lines : List Text} {c : Prop} [Decidable c] :
    ∀ placed ∈ (located none lines).filter (!isOwn remote ·) ++
      (if c then [] else [(aliases, sectionHeader)]), isOwn remote placed = false := by
  intro placed hplaced
  rw [List.mem_append, List.mem_filter] at hplaced
  rcases hplaced with ⟨_, hown⟩ | hheader
  . simpa using hown
  . split at hheader
    . contradiction
    . rw [List.mem_singleton.1 hheader]
      rfl

theorem pushKey_ne (remote : Text) : pushKey remote ≠ remote := by
  simp [pushKey, ofString]

theorem pushurl_ne (remote : Text) :
    remote ≠ remote ++ ":pushurl" ∧ pushKey remote ≠ remote ++ ":pushurl" := by
  simp [pushKey, ofString]

theorem filterMap_entries (h : IsAlias remote pull push) (key : Text) :
    ((entries remote pull push).map (aliases, ·)).filterMap (found? aliases key) =
      (if remote = key then [pull] else []) ++
        if pushKey remote = key then [push.getD []] else [] := by
  simp only [entries, List.map_cons, List.map_nil, List.filterMap_cons, List.filterMap_nil,
    found?_entry h.key h.pull, found?_entry h.key.pushKey h.trim_getD]
  split <;> split <;> simp_all

theorem sets_update (h : IsAlias remote pull push) (lines : List Text) :
    Sets remote pull push lines (update remote pull push lines) := by
  obtain ⟨front, back, hlocated, hrest⟩ := exists_located_update h lines
  have hothers : ∀ placed ∈ front ++ back, isOwn remote placed = false := by
    rw [hrest]
    exact isOwn_eq_false_of_mem
  rw [List.forall_mem_append] at hothers
  have hvalue (key : Text) (hkey : key ∈ ownKeys remote) :
      value? (update remote pull push lines) aliases key =
        ((if remote = key then [pull] else []) ++
          if pushKey remote = key then [push.getD []] else []).getLast? := by
    rw [value?, hlocated, List.filterMap_append, List.filterMap_append, filterMap_entries h,
      filterMap_of_not_own hkey hothers.1, filterMap_of_not_own hkey hothers.2, List.nil_append,
      List.append_nil]
  refine ⟨?_, ?_, ?_, ?_, ?_, ?_⟩
  . have hnew : ((entries remote pull push).map (aliases, ·)).filter (isOwn remote ·) =
        (entries remote pull push).map (aliases, ·) :=
      List.filter_eq_self.2 (List.forall_mem_map.2 (isOwn_entries h))
    rw [ownLines, hlocated, List.filter_append, List.filter_append,
      filter_own_of_not_own hothers.1, hnew, filter_own_of_not_own hothers.2, List.nil_append,
      List.append_nil, List.map_map]
    exact List.map_id _
  . rw [hvalue remote (by simp [ownKeys]), if_pos rfl, if_neg (pushKey_ne remote)]
    rfl
  . rw [hvalue (pushKey remote) (by simp [ownKeys]), if_neg (pushKey_ne remote).symm, if_pos rfl]
    rfl
  . rw [hvalue _ (by simp [ownKeys]), if_neg (pushurl_ne remote).1, if_neg (pushurl_ne remote).2]
    rfl
  . have hkept : (front ++ (entries remote pull push).map (aliases, ·) ++ back).filter
        (!isOwn remote ·) = front ++ back := by
      rw [List.filter_append, List.filter_append, filter_of_not_own hothers.1, filter_entries h,
        filter_of_not_own hothers.2, List.append_nil]
    rw [otherLines, hlocated, hkept, hrest, List.map_append]
    split <;> rfl
  . intro name key hother
    have hnone : ((entries remote pull push).map (aliases, ·)).filterMap (found? name key) = [] :=
      List.filterMap_eq_nil_iff.2
        (List.forall_mem_map.2 fun line hline => found?_of_own hother (isOwn_entries h line hline))
    have hheader : found? name key (aliases, sectionHeader) = none := if_neg nofun
    rw [value?, hlocated, List.filterMap_append, List.filterMap_append, hnone, List.append_nil,
      ← List.filterMap_append, hrest, List.filterMap_append, filterMap_filter_own hother]
    split <;> simp [value?, hheader]

theorem otherLines_entries_append (h : IsAlias remote pull push) (back : List Text) :
    otherLines remote aliases (entries remote pull push ++ back) =
      otherLines remote aliases back := by
  have hnew : ∀ placed ∈ (entries remote pull push).map (aliases, ·),
      isOwn remote placed = true := List.forall_mem_map.2 (isOwn_entries h)
  have hnone : ((entries remote pull push).map (aliases, ·)).filter (!isOwn remote ·) = [] :=
    List.filter_eq_nil_iff.2 fun placed hmem => by rw [hnew placed hmem]; nofun
  rw [otherLines, located_append_of_section? (sectionName?_of_mem_entries h), List.filter_append,
    hnone, List.nil_append]
  rfl

/-- Nothing remains of what a remote has been set to before. -/
theorem update_update (h : IsAlias remote pull push) (pull' : Text) (push' : Option Text)
    (lines : List Text) :
    update remote pull' push' (update remote pull push lines) =
      update remote pull' push' lines := by
  rcases exists_header lines with hnone | ⟨front, line, back, rfl, hfront, hline⟩
  . -- the second call finds the header that the first one has appended
    have hdropped := otherLines_entries_append h []
    rw [List.append_nil] at hdropped
    rw [update_of_forall_ne hnone, update_append_header hnone (by rfl), hdropped,
      update_of_forall_ne hnone]
    rfl
  . rw [update_append_header hfront hline, update_append_header hfront hline,
      otherLines_entries_append h, otherLines_otherLines, update_append_header hfront hline]

theorem mem_of_mem_otherLines {current : Option Text} {lines : List Text} {line : Text}
    (h : line ∈ otherLines remote current lines) : line ∈ lines := by
  obtain ⟨placed, hplaced, rfl⟩ := List.mem_map.1 h
  rw [← map_snd_located current lines]
  exact List.mem_map_of_mem (List.mem_filter.1 hplaced).1

theorem mem_update {lines : List Text} {line : Text} (h : line ∈ update remote pull push lines) :
    line ∈ lines ∨ line = sectionHeader ∨ line ∈ entries remote pull push := by
  rcases exists_header lines with hnone | ⟨front, header, back, rfl, hfront, hheader⟩
  . rw [update_of_forall_ne hnone, List.mem_append, List.mem_cons] at h
    exact h
  . rw [update_append_header hfront hheader, List.mem_append, List.mem_cons, List.mem_append] at h
    rcases h with h | rfl | h | h
    . simp [h]
    . simp
    . exact .inr (.inr h)
    . simp [mem_of_mem_otherLines h]

theorem mem_update_of_mem_entries {line : Text} (h : line ∈ entries remote pull push)
    (lines : List Text) : line ∈ update remote pull push lines := by
  rcases exists_header lines with hnone | ⟨front, header, back, rfl, hfront, hheader⟩
  . rw [update_of_forall_ne hnone]
    simp [h]
  . rw [update_append_header hfront hheader]
    simp [h]

theorem noStrays_entries :
    (∀ line ∈ entries remote pull push, NoStrays line) ↔
      ∀ t ∈ [remote, pull, push.getD []], NoStrays t := by
  simp only [entries, pushKey, List.forall_mem_cons, noStrays_append, noStrays_ofString, and_true]
  tauto

theorem unbroken_entries (h : ∀ t ∈ [remote, pull, push.getD []], Unbroken t) :
    ∀ line ∈ entries remote pull push, Unbroken line := by
  have hequals : Unbroken " = " := by decide
  have hpush : Unbroken "-push" := by decide
  simp only [List.forall_mem_cons] at h
  simp only [entries, pushKey, List.forall_mem_cons, unbroken_append]
  tauto

end

end PathSettings

end Mercurial

end Dvcs
