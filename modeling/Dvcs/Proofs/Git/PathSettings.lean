import Dvcs.Git.Exchange
import Dvcs.Proofs.Git.Command
import Dvcs.Proofs.Text.Join
import Dvcs.Proofs.World.Steps

/-!
This module contains what is read back of the locations of remotes after any calls that have set
some. The last call for a remote decides where it is fetched from. Where it is pushed to is decided
by the last call that has given a location for it, which may be an earlier one: a call without such
a location leaves the setting as it is.
-/

namespace Dvcs

namespace Git

open Text

namespace Config

theorem values?_set (config : Config) (sect option value : Text) :
    (config.set sect option value).values? sect option = some [.text value] := by
  simp [values?, set]

theorem values?_set_of_ne {sect option other name : Text} (h : ¬ (other = sect ∧ name = option))
    (config : Config) (value : Text) :
    (config.set sect option value).values? other name = config.values? other name := by
  unfold values? set
  rw [List.lookup_cons]
  by_cases hsect : other = sect
  . have hname : name ≠ option := fun heq => h ⟨hsect, heq⟩
    have hnameb : (name == option) = false := by simpa using hname
    rw [hsect, beq_self_eq_true]
    dsimp only
    rw [Option.bind_some, List.lookup_cons, hnameb]
    dsimp only
    rw [FileTree.lookup_filter_ne hname]
    cases config.lookup sect <;> rfl
  . have hsectb : (other == sect) = false := by simpa using hsect
    rw [hsectb]
    dsimp only
    rw [FileTree.lookup_filter_ne hsect]

end Config

/-- The section and the option that a setting of a remote is read from are those that it is written
to, whatever the name of the remote is. -/
theorem configLocation_remote {option : Text} (h : .char '.' ∉ option) (remote : Text) :
    configLocation ("remote." ++ remote ++ .char '.' :: option) =
      .ok (remoteSection remote, option) := by
  have hkey : "remote." ++ remote ++ .char '.' :: option =
      "remote" ++ .char '.' :: (remote ++ .char '.' :: option) := by
    simp [ofString]
  have hsplit : ("remote." ++ remote ++ .char '.' :: option).splitOn (.char '.') =
      ("remote" : Text) :: (remote.splitOn (.char '.') ++ [option]) := by
    rw [hkey, splitOn_append_cons (by decide), splitOn_append_of_not_mem h]
  obtain ⟨part, parts, hparts⟩ := List.exists_cons_of_ne_nil (splitOn_ne_nil (.char '.') remote)
  have hname : join "." (part :: parts) = remote := by
    rw [← hparts]
    exact join_splitOn (.char '.') remote
  obtain ⟨next, more, hmore⟩ : ∃ next more, parts ++ [option] = next :: more :=
    List.exists_cons_of_ne_nil (by simp)
  unfold configLocation
  rw [hsplit, hparts, List.cons_append, hmore]
  dsimp only
  rw [← hmore, ← List.cons_append, List.dropLast_concat, hname, List.getLastD_concat]
  rfl

/-- A call that sets the locations of a remote. -/
structure Setting where
  remote : Text
  pull : Text
  push : Option Text := none

namespace Setting

/-- The location to push to that a call writes. -/
def push? (s : Setting) : Option Text := nonEmpty s.push

def store (r : WorkingCopy) (s : Setting) : Op Unit := setPaths r s.remote s.pull s.push

/-- The configuration after a call. -/
def written (config : Config) (s : Setting) : Config :=
  let config := config.set (remoteSection s.remote) "url" s.pull
  match s.push? with
  | some push => config.set (remoteSection s.remote) "pushurl" push
  | none => config

end Setting

/-- The value that counts among those of a setting of a remote. -/
def configured (config : Config) (remote option : Text) : Option Text :=
  ((config.values? (remoteSection remote) option).getD []).getLast?.map ConfigValue.toText

/-- The locations to push to that some calls give for a remote. -/
def pushes (remote : Text) (settings : List Setting) : List Text :=
  (settings.filter (·.remote = remote)).filterMap Setting.push?

/-- The location to push to that is set for a remote before its last call. -/
def leftover (config : Config) (before : List Setting) (remote : Text) : Option Text :=
  (pushes remote before).getLast?.or (configured config remote "pushurl")

/-- Sets locations, one call after the other, and reads those of a remote. -/
def readBack (r : WorkingCopy) (settings : List Setting) (remote : Text) :
    Op (Option Text × Option Text) := do
  settings.forM (Setting.store r)
  let pull ← pullPath r remote
  let push ← pushPath r remote
  return (pull, push)

section

variable {config : Config} {remote other option : Text} {s : Setting} {settings : List Setting}

theorem remoteSection_injective : Function.Injective remoteSection := by
  intro remote other h
  unfold remoteSection at h
  rw [List.append_assoc, List.append_assoc] at h
  exact List.append_cancel_right (List.append_cancel_left h)

theorem configured_set (config : Config) (remote option value : Text) :
    configured (config.set (remoteSection remote) option value) remote option = some value := by
  rw [configured, Config.values?_set]
  rfl

theorem configured_set_of_ne {name : Text} (h : ¬ (other = remote ∧ name = option))
    (config : Config) (value : Text) :
    configured (config.set (remoteSection remote) option value) other name =
      configured config other name := by
  unfold configured
  rw [Config.values?_set_of_ne fun heq => h ⟨remoteSection_injective heq.1, heq.2⟩]

theorem configured_written_url (config : Config) (s : Setting) :
    configured (s.written config) s.remote "url" = some s.pull := by
  unfold Setting.written
  cases s.push? with
  | none => exact configured_set config _ _ _
  | some push =>
    dsimp only
    rw [configured_set_of_ne fun heq => absurd heq.2 (by decide), configured_set]

theorem configured_written_pushurl (config : Config) (s : Setting) :
    configured (s.written config) s.remote "pushurl" =
      s.push?.or (configured config s.remote "pushurl") := by
  unfold Setting.written
  cases s.push? with
  | none => exact configured_set_of_ne (fun heq => absurd heq.2 (by decide)) config _
  | some push => exact configured_set _ _ _ _

theorem configured_written_of_ne (h : remote ≠ s.remote) (config : Config) (option : Text) :
    configured (s.written config) remote option = configured config remote option := by
  unfold Setting.written
  cases s.push? with
  | none => exact configured_set_of_ne (fun heq => h heq.1) config _
  | some push =>
    dsimp only
    rw [configured_set_of_ne fun heq => h heq.1, configured_set_of_ne fun heq => h heq.1]

theorem configured_foldl_of_forall_ne (h : ∀ s ∈ settings, s.remote ≠ remote) (config : Config)
    (option : Text) :
    configured (settings.foldl Setting.written config) remote option =
      configured config remote option := by
  induction settings generalizing config with
  | nil => rfl
  | cons s settings ih =>
    rw [List.forall_mem_cons] at h
    rw [List.foldl_cons, ih h.2, configured_written_of_ne h.1.symm]

theorem configured_foldl_pushurl (settings : List Setting) (config : Config) (remote : Text) :
    configured (settings.foldl Setting.written config) remote "pushurl" =
      leftover config settings remote := by
  unfold leftover
  induction settings generalizing config with
  | nil => rfl
  | cons s settings ih =>
    rw [List.foldl_cons, ih]
    by_cases h : s.remote = remote
    . subst h
      rw [configured_written_pushurl]
      cases hpush : s.push? with
      | none => simp [pushes, hpush]
      | some push => simp [pushes, hpush, List.getLast?_cons]
    . rw [configured_written_of_ne (Ne.symm h)]
      simp [pushes, h]

end

section

variable {r : WorkingCopy} {w : World}

theorem store_eq (h : w.git.openRoots.contains r.root = true ∨ w.git.opens = true) (s : Setting) :
    ∃ w', s.store r w = .ok () w' ∧ w'.git.openRoots.contains r.root = true ∧
      w'.git.config = s.written w.git.config := by
  obtain ⟨w₁, hopen, hisOpen, hgit⟩ := ensureOpen_eq h
  unfold Setting.store setPaths
  rw [Op.bind_of_ok hopen]
  have hconfig : w₁.git.config = w.git.config := by rw [hgit]
  unfold Setting.written Setting.push?
  rw [← hconfig]
  cases nonEmpty s.push with
  | none => exact ⟨_, rfl, hisOpen, rfl⟩
  | some push => exact ⟨_, rfl, hisOpen, rfl⟩

theorem forM_store_eq (h : w.git.openRoots.contains r.root = true ∨ w.git.opens = true)
    (settings : List Setting) :
    ∃ w', settings.forM (Setting.store r) w = .ok () w' ∧
      (w'.git.openRoots.contains r.root = true ∨ w'.git.opens = true) ∧
      w'.git.config = settings.foldl Setting.written w.git.config := by
  induction settings generalizing w with
  | nil => exact ⟨w, rfl, h, rfl⟩
  | cons s settings ih =>
    obtain ⟨w₁, hstore, hisOpen, hconfig⟩ := store_eq h s
    obtain ⟨w₂, hrest, hopens, hconfig₂⟩ := ih (.inl hisOpen)
    refine ⟨w₂, ?_, hopens, ?_⟩
    . change (s.store r >>= fun _ => settings.forM (Setting.store r)) w = .ok () w₂
      rw [Op.bind_of_ok hstore, hrest]
    . rw [hconfig₂, hconfig, List.foldl_cons]

theorem configLast_eq (h : w.git.openRoots.contains r.root = true ∨ w.git.opens = true)
    {option : Text} (hoption : .char '.' ∉ option) (remote : Text) :
    ∃ w', configLast r ("remote." ++ remote ++ .char '.' :: option) w =
        .ok (configured w.git.config remote option) w' ∧
      w'.git.openRoots.contains r.root = true ∧ w'.git.config = w.git.config := by
  obtain ⟨w₁, hopen, hisOpen, hgit⟩ := ensureOpen_eq h
  have hconfig : w₁.git.config = w.git.config := by rw [hgit]
  have hlocation : Op.ofExcept (configLocation ("remote." ++ remote ++ .char '.' :: option)) w =
      .ok (remoteSection remote, option) w := by
    rw [configLocation_remote hoption]
    rfl
  have hvalues : config r ("remote." ++ remote ++ .char '.' :: option) w =
      .ok (((w.git.config.values? (remoteSection remote) option).getD []).map ConfigValue.toText)
        { w₁ with log := .git (.valuesAsked (remoteSection remote) option) :: w₁.log } := by
    unfold Git.config
    rw [Op.bind_of_ok hlocation]
    dsimp only
    rw [Op.bind_of_ok hopen, ← hconfig]
    rfl
  let asked : World :=
    { w₁ with log := .git (.valuesAsked (remoteSection remote) option) :: w₁.log }
  refine ⟨asked, ?_, hisOpen, hconfig⟩
  unfold configLast
  rw [Op.bind_of_ok hvalues, configured, List.getLast?_map]
  rfl

theorem pullPath_eq (h : w.git.openRoots.contains r.root = true ∨ w.git.opens = true)
    (remote : Text) :
    ∃ w', pullPath r remote w = .ok (configured w.git.config remote "url") w' ∧
      w'.git.openRoots.contains r.root = true ∧ w'.git.config = w.git.config :=
  configLast_eq h (by decide) remote

theorem pushPath_eq (h : w.git.openRoots.contains r.root = true ∨ w.git.opens = true)
    (remote : Text) :
    ∃ w', pushPath r remote w =
      .ok ((configured w.git.config remote "pushurl").or (configured w.git.config remote "url"))
        w' := by
  have hoption : .char '.' ∉ ("pushurl" : Text) := by decide
  obtain ⟨w₁, hpush, hisOpen, hconfig⟩ := configLast_eq h hoption remote
  have hkey : configLast r ("remote." ++ remote ++ ".pushurl") w =
      .ok (configured w.git.config remote "pushurl") w₁ := hpush
  unfold pushPath
  rw [Op.bind_of_ok hkey]
  cases configured w.git.config remote "pushurl" with
  | some path => exact ⟨w₁, rfl⟩
  | none =>
    obtain ⟨w₂, hpull, _⟩ := pullPath_eq (.inl hisOpen) remote
    rw [hconfig] at hpull
    exact ⟨w₂, hpull⟩

/-- The last call for a remote decides where it is fetched from. Where it is pushed to is its own
setting, be it from that call or left over from before, and else where it is fetched from. -/
theorem readBack_eq (h : w.git.openRoots.contains r.root = true ∨ w.git.opens = true)
    (before : List Setting) (last : Setting) {after : List Setting}
    (hafter : ∀ s ∈ after, s.remote ≠ last.remote) :
    ((readBack r (before ++ last :: after) last.remote).perform w).1 =
      .ok (some last.pull,
        some ((last.push?.or (leftover w.git.config before last.remote)).getD last.pull)) := by
  obtain ⟨w₁, hstore, hopens, hconfig⟩ := forM_store_eq h (before ++ last :: after)
  obtain ⟨w₂, hpull, hisOpen, hconfig₂⟩ := pullPath_eq hopens last.remote
  obtain ⟨w₃, hpush⟩ := pushPath_eq (.inl hisOpen) last.remote
  have hurl : configured w₁.git.config last.remote "url" = some last.pull := by
    rw [hconfig, List.foldl_append, List.foldl_cons, configured_foldl_of_forall_ne hafter,
      configured_written_url]
  have hpushurl : configured w₁.git.config last.remote "pushurl" =
      last.push?.or (leftover w.git.config before last.remote) := by
    rw [hconfig, List.foldl_append, List.foldl_cons, configured_foldl_of_forall_ne hafter,
      configured_written_pushurl, configured_foldl_pushurl]
  have hread : readBack r (before ++ last :: after) last.remote w =
      .ok (some last.pull,
        some ((last.push?.or (leftover w.git.config before last.remote)).getD last.pull)) w₃ := by
    unfold readBack
    rw [Op.bind_of_ok hstore, Op.bind_of_ok hpull, Op.bind_of_ok hpush, hconfig₂, hurl, hpushurl,
      Option.or_some]
    rfl
  unfold Op.perform
  rw [hread]

end

/-- A working copy of git. -/
def sampleCopy : WorkingCopy := ⟨.git, ⟨"/", ["work"]⟩, "git", none⟩

/-- The name of the remote has dots, blanks and quotes in it. -/
theorem readBack_dotted :
    ((readBack sampleCopy
      ([⟨"a.b \"c\"", "/old", some "/push"⟩, ⟨"a.b", "/x", some "/y"⟩] ++
        ⟨"a.b \"c\"", "/new", none⟩ :: [⟨"a", "/z", none⟩]) "a.b \"c\"").perform {}).1 =
      .ok (some "/new", some "/push") :=
  readBack_eq (.inr rfl) _ ⟨"a.b \"c\"", "/new", none⟩ (by decide)

/-- A call without a location to push to does not do away with an earlier one. -/
theorem not_readBack :
    ¬ ∀ (r : WorkingCopy) (w : World) (before after : List Setting) (last : Setting),
      w.git.opens = true → (∀ s ∈ after, s.remote ≠ last.remote) →
        ((readBack r (before ++ last :: after) last.remote).perform w).1 =
          .ok (some last.pull, some (last.push?.getD last.pull)) := by
  intro h
  have hpromised := h sampleCopy {} [⟨"origin", "a", some "b"⟩] [] ⟨"origin", "c", none⟩ rfl nofun
  have hread : ((readBack sampleCopy [⟨"origin", "a", some "b"⟩, ⟨"origin", "c", none⟩]
      "origin").perform {}).1 = .ok (some "c", some "b") := by rfl
  have heq := hread.symm.trans hpromised
  contradiction

end Git

end Dvcs
