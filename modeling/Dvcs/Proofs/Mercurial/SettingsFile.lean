import Dvcs.Proofs.Mercurial.PathSettings

/-!
This module contains what setting an alias does to the configuration file of a repository. As long
as all texts can be written, the file holds the changed lines, and what was set for the same remote
before makes no difference. A location that cannot be written leaves an empty file behind.
-/

namespace Dvcs

namespace World

/-- A world with another file at a place. -/
def overwrite (w : World) (place : List Text) (content : Bytes) : World :=
  { w with files := w.files.set place (.file content) }

theorem overwrite_overwrite (w : World) (place : List Text) (content other : Bytes) :
    (w.overwrite place content).overwrite place other = w.overwrite place other := by
  simp [overwrite, FileTree.set]

end World

namespace Mercurial

open FileTree PathSettings Text

/-- A path leads to a place where a file can be. -/
structure Writable (w : World) (p : Path) (place : List Text) : Prop where
  legal : Op.holdsNull p = false
  leads : w.files.locate p = .ok place
  node : w.files.node? place ≠ some .directory

section

variable {w : World} {p : Path} {place : List Text}

theorem Writable.overwrite (h : Writable w p place) (content : Bytes) :
    Writable (w.overwrite place content) p place := by
  have hsame : SameDirectories w.files (w.overwrite place content).files :=
    sameDirectories_set h.node content
  exact ⟨h.legal, hsame.locate h.leads, fun hnode => h.node ((hsame place).2 hnode)⟩

theorem Writable.writeFile (h : Writable w p place) (content : Bytes) :
    Op.writeFile p content w = .ok () (w.overwrite place content) :=
  Op.writeFile_eq h.legal h.leads h.node content

theorem Writable.writeText (h : Writable w p place) (t : Text) :
    writeText p t w =
      (Op.ofExcept ((encodeStrict t).mapError .codec) >>= Op.writeFile p)
        (w.overwrite place []) :=
  Op.bind_of_ok (h.writeFile [])

theorem Writable.writeText_of_noStrays (h : Writable w p place) {t : Text} (ht : NoStrays t) :
    Mercurial.writeText p t w = .ok () (w.overwrite place (encode t)) := by
  have hbytes : encodeStrict t = .ok (encode t) := encodeStrictFrom_of_noStrays ht 0
  rw [h.writeText, hbytes]
  calc
    _ = Op.writeFile p (encode t) (w.overwrite place []) := rfl
    _ = .ok () ((w.overwrite place []).overwrite place (encode t)) :=
      (h.overwrite []).writeFile (encode t)
    _ = _ := by rw [World.overwrite_overwrite]

theorem Writable.exists_writeText_eq_error (h : Writable w p place) {t : Text}
    (ht : ¬ NoStrays t) :
    ∃ e, Mercurial.writeText p t w = .error (.codec e) (w.overwrite place []) := by
  -- the text is only looked at when the file has already been emptied
  obtain ⟨e, he⟩ := exists_encodeStrictFrom_eq_error ht 0
  have hbytes : encodeStrict t = .error e := he
  refine ⟨e, ?_⟩
  rw [h.writeText, hbytes]
  rfl

theorem Writable.writeText_overwrite (h : Writable w p place) (content : Bytes) (t : Text) :
    Mercurial.writeText p t (w.overwrite place content) = Mercurial.writeText p t w := by
  rw [(h.overwrite content).writeText, h.writeText, World.overwrite_overwrite]

end

/-- The configuration file of a repository holds a text, or there is none yet. -/
structure Configured (w : World) (r : WorkingCopy) (content : Option Text) : Prop where
  isDirectory : w.files.isDirectory (r.path [hgDirectory]) = true
  legal : Op.holdsNull (settingsFile r) = false
  file : w.files.get? (settingsFile r) = content.map fun t => .file (encode t)
  noStrays : ∀ t ∈ content, NoStrays t

/-- The lines of the configuration file. -/
def contentLines (content : Option Text) : List Text := (content.map fileLines).getD []

section

variable {r : WorkingCopy} {w : World} {content : Option Text} {place : List Text}

theorem Configured.exists_place (h : Configured w r content) :
    ∃ place, Writable w (settingsFile r) place ∧
      w.files.node? place = content.map fun t => .file (encode t) := by
  obtain ⟨parent, hparent⟩ := locate_child h.isDirectory
  have hpath : settingsFile r =
      ⟨(r.path [hgDirectory]).root, (r.path [hgDirectory]).parts ++ [("hgrc" : Text)]⟩ := by
    simp [settingsFile, WorkingCopy.path, Path.join, Path.isAbsolute]
  have hplace := hparent "hgrc" (by decide)
  rw [← hpath] at hplace
  have hnode : w.files.node? (parent ++ [("hgrc" : Text)]) =
      content.map fun t => .file (encode t) := by
    rw [← h.file, get?, hplace]
    rfl
  refine ⟨_, ⟨h.legal, hplace, fun hdirectory => ?_⟩, hnode⟩
  have hfile := hnode.symm.trans hdirectory
  cases content <;> cases hfile

theorem Configured.overwrite (h : Configured w r content)
    (hplace : Writable w (settingsFile r) place) {t : Text} (ht : NoStrays t) :
    Configured (w.overwrite place (encode t)) r (some t) := by
  have hsame : SameDirectories w.files (w.overwrite place (encode t)).files :=
    sameDirectories_set hplace.node (encode t)
  refine ⟨hsame.isDirectory h.isDirectory, h.legal, ?_, ?_⟩
  . rw [get?, hsame.locate hplace.leads]
    exact node?_set w.files _ (ne_nil_of_node? hplace.node)
  . rintro _ ⟨⟩
    exact ht

theorem Writable.readFile (h : Writable w p place) {content : Bytes}
    (hnode : w.files.node? place = some (.file content)) : Op.readFile p w = .ok content w := by
  have hread : w.files.read p = .ok content := by
    unfold FileTree.read
    rw [h.leads]
    simp only [bind, Except.bind, hnode]
    rfl
  have hlegal : Op.readFile p w = Op.ofFault p (w.files.read p) w := by
    unfold Op.readFile
    rw [h.legal]
    rfl
  rw [hlegal, hread]
  rfl

theorem settingsLines_eq (h : Configured w r content) :
    settingsLines r w = .ok (contentLines content) w := by
  obtain ⟨place, hplace, hnode⟩ := h.exists_place
  have hexists : Op.exists? (settingsFile r) w =
      .ok (!Op.holdsNull (settingsFile r) && w.files.has (settingsFile r)) w := rfl
  unfold settingsLines
  rw [Op.bind_of_ok hexists, h.legal, has, h.file]
  cases content with
  | none => rfl
  | some t =>
    have hread := hplace.readFile hnode
    have hdecode : decodeStrict (encode t) = .ok t := decodeStrictFrom_encode (h.noStrays t rfl) 0
    calc
      _ = (Op.readFile (settingsFile r) >>= fun content => do
          return (← Op.ofExcept ((decodeStrict content).mapError .codec)).unifyNewlines.lines) w :=
        rfl
      _ = _ := by
        rw [Op.bind_of_ok hread, hdecode]
        rfl

variable {remote pull : Text} {push : Option Text}

theorem setPaths_eq (h : Configured w r content) (remote pull : Text) (push : Option Text) :
    setPaths r remote pull push w =
      writeText (settingsFile r) (unlines (update remote pull push (contentLines content))) w := by
  have hne : update remote pull push (contentLines content) ≠ [] :=
    List.ne_nil_of_mem (mem_update_of_mem_entries List.mem_cons_self _)
  unfold setPaths
  rw [Op.bind_of_ok (settingsLines_eq h), join_append_newline hne]

theorem forall_contentLines (h : Configured w r content) :
    ∀ line ∈ contentLines content, NoStrays line ∧ Unbroken line := by
  intro line hline
  cases content with
  | none => contradiction
  | some t =>
    exact ⟨noStrays_of_mem_fileLines (h.noStrays t rfl) hline, unbroken_of_mem_fileLines hline⟩

theorem noStrays_unlines_update (h : Configured w r content) :
    NoStrays (unlines (update remote pull push (contentLines content))) ↔
      ∀ t ∈ [remote, pull, push.getD []], NoStrays t := by
  rw [noStrays_unlines, ← noStrays_entries]
  constructor
  . exact fun hall line hline => hall line (mem_update_of_mem_entries hline _)
  . intro hnew line hline
    rcases mem_update hline with hold | rfl | hentry
    . exact (forall_contentLines h line hold).1
    . exact noStrays_ofString "[paths]"
    . exact hnew line hentry

theorem unbroken_update (h : Configured w r content)
    (hunbroken : ∀ t ∈ [remote, pull, push.getD []], Unbroken t) :
    ∀ line ∈ update remote pull push (contentLines content), Unbroken line := by
  intro line hline
  rcases mem_update hline with hold | rfl | hentry
  . exact (forall_contentLines h line hold).2
  . decide
  . exact unbroken_entries hunbroken line hentry

/-- A text that cannot be written leaves an empty file behind. -/
theorem exists_setPaths_eq_error (h : Configured w r content)
    (hplace : Writable w (settingsFile r) place)
    (hstray : ∃ t ∈ [remote, pull, push.getD []], ¬ NoStrays t) :
    ∃ e, setPaths r remote pull push w = .error (.codec e) (w.overwrite place []) := by
  obtain ⟨t, ht, hbad⟩ := hstray
  rw [setPaths_eq h]
  exact hplace.exists_writeText_eq_error fun hall =>
    hbad ((noStrays_unlines_update h).1 hall t ht)

/-- Setting an alias changes the lines of this alias only, and the last call for a remote decides.
A text that cannot be written is an error, and all lines of the file are lost then. -/
theorem setPaths_outcome (h : Configured w r content) (halias : IsAlias remote pull push)
    (hunbroken : ∀ t ∈ [remote, pull, push.getD []], Unbroken t) :
    ∃ place, w.files.locate (settingsFile r) = .ok place ∧
      ((∀ t ∈ [remote, pull, push.getD []], NoStrays t) →
        ∃ text w', w' = w.overwrite place (encode text) ∧ Configured w' r (some text) ∧
          setPaths r remote pull push w = .ok () w' ∧
          Sets remote pull push (contentLines content) (fileLines text) ∧
          setPaths r remote pull push w' = .ok () w' ∧
          ∀ pull' push', setPaths r remote pull' push' w' = setPaths r remote pull' push' w) ∧
      ((∃ t ∈ [remote, pull, push.getD []], ¬ NoStrays t) →
        ∃ e, setPaths r remote pull push w = .error (.codec e) (w.overwrite place [])) := by
  obtain ⟨place, hplace, _⟩ := h.exists_place
  refine ⟨place, hplace.leads, fun hchars => ?_, exists_setPaths_eq_error h hplace⟩
  . let text := unlines (update remote pull push (contentLines content))
    have htext : NoStrays text := (noStrays_unlines_update h).2 hchars
    have hlines : fileLines text = update remote pull push (contentLines content) :=
      fileLines_unlines (unbroken_update h hunbroken)
    have hcall : setPaths r remote pull push w = .ok () (w.overwrite place (encode text)) := by
      rw [setPaths_eq h, hplace.writeText_of_noStrays htext]
    have hthere := h.overwrite hplace htext
    have hagain (pull' : Text) (push' : Option Text) :
        setPaths r remote pull' push' (w.overwrite place (encode text)) =
          setPaths r remote pull' push' w := by
      have hcontent : contentLines (some text) =
          update remote pull push (contentLines content) := hlines
      rw [setPaths_eq hthere, hcontent, update_update halias, hplace.writeText_overwrite,
        setPaths_eq h]
    refine ⟨text, _, rfl, hthere, hcall, ?_, (hagain pull push).trans hcall, hagain⟩
    rw [hlines]
    exact sets_update halias _

/-- A configuration file with two sections of aliases, both with entries of one remote. -/
def sampleSettings : Text :=
  "[ui]\nuser = me\n[paths]\nmine = /a\n theirs=/b\n[ui]\ntheirs = x\n [paths] \ntheirs-push = /d"

/-- A repository with this file. -/
def sampleWorld : World :=
  { files := ⟨[(["work", ".hg", "hgrc"], .file (encode sampleSettings)),
      (["work", ".hg"], .directory), (["work"], .directory)]⟩ }

theorem setPaths_sample :
    ∃ text w',
      setPaths ⟨.mercurial, ⟨"/", ["work"]⟩, "hg", none⟩ "theirs" "/srv/e f" none sampleWorld =
        .ok () w' ∧
      Sets "theirs" "/srv/e f" none (fileLines sampleSettings) (fileLines text) ∧
      setPaths ⟨.mercurial, ⟨"/", ["work"]⟩, "hg", none⟩ "theirs" "/srv/e f" none w' =
        .ok () w' := by
  have hfile : Configured sampleWorld ⟨.mercurial, ⟨"/", ["work"]⟩, "hg", none⟩
      (some sampleSettings) :=
    ⟨by rfl, by rfl, by rfl, by rintro _ ⟨⟩; exact noStrays_ofString _⟩
  have halias : IsAlias "theirs" "/srv/e f" none :=
    ⟨⟨by decide, by rfl, by decide, by decide⟩, by rfl, nofun⟩
  have hchars : ∀ t ∈ [("theirs" : Text), "/srv/e f", []], NoStrays t := by
    simp only [List.forall_mem_cons]
    exact ⟨noStrays_ofString _, noStrays_ofString _, noStrays_ofString "", nofun⟩
  obtain ⟨place, _, houtcome, _⟩ := setPaths_outcome hfile halias (by decide)
  obtain ⟨text, w', _, _, hcall, hsets, hagain, _⟩ := houtcome hchars
  exact ⟨text, w', hcall, hsets, hagain⟩

/-- A repository with a name in its configuration. -/
def namedWorld : World :=
  { files := ⟨[(["work", ".hg", "hgrc"], .file (encode "[ui]\nusername = Ada\n")),
      (["work", ".hg"], .directory), (["work"], .directory)]⟩ }

/-- A location with a byte that belongs to no character is not set, and the name is lost. -/
theorem setPaths_strayByte :
    let r : WorkingCopy := ⟨.mercurial, ⟨"/", ["work"]⟩, "hg", none⟩
    let location : Text := [.byte 0xff]
    IsAlias "origin" location none ∧ Unbroken location ∧
      Configured namedWorld r (some "[ui]\nusername = Ada\n") ∧
      ∃ e w', setPaths r "origin" location none namedWorld = .error (.codec e) w' ∧
        Op.readFile (settingsFile r) w' = .ok [] w' := by
  intro r location
  have hfile : Configured namedWorld r (some "[ui]\nusername = Ada\n") :=
    ⟨by rfl, by rfl, by rfl, by rintro _ ⟨⟩; exact noStrays_ofString _⟩
  have hstray : ∃ t ∈ [("origin" : Text), location, (none : Option Text).getD []], ¬ NoStrays t :=
    ⟨location, by simp, not_noStrays_byte_cons⟩
  obtain ⟨place, hplace, _⟩ := hfile.exists_place
  obtain ⟨e, he⟩ := exists_setPaths_eq_error hfile hplace hstray
  have hemptied := node?_set namedWorld.files (.file []) (ne_nil_of_node? hplace.node)
  exact ⟨⟨⟨by decide, by rfl, by decide, by decide⟩, by rfl, nofun⟩, by decide, hfile, e, _, he,
    (hplace.overwrite []).readFile hemptied⟩

end

end Mercurial

end Dvcs
