import BBView.Site

/-!
# The books of a site

As long as every step is allowed, the destination with the logs that the jobs and the current view
still have to write accounts for everything that has been written.  A hand-over replaces the log of
the current view by the copy of its local file, which assigns the same to the bytes of the log.
-/

namespace BBView

section Names

variable {config : Config} {filename : Bytes} {rank index : ℕ}

/-- The daemon opens the local file whose path was sent. -/
theorem handedName_localFilename (plain : PlainNames config filename) :
    handedName (localFilename config filename rank index) =
      some (baseName (localFilename config filename rank index)) := by
  have length_eq : (localFilename config filename rank index).length =
      min (pathMax - 1) (formatLocal config filename rank index).length := by
    rw [localFilename, List.length_append, List.length_map, ← List.length_append,
      List.take_append_drop, List.length_take]
  have nonempty : localFilename config filename rank index ≠ [] := by
    rw [← List.length_pos_iff, length_eq, formatLocal, List.length_append, List.length_cons, pathMax]
    omega
  have room : (localFilename config filename rank index).length < pathMax := by
    rw [length_eq, pathMax]
    omega
  have whole {mark : UInt8} (apart : mark ≠ slash) (outside : mark ∉ config.tmpDir ∧ mark ∉ filename) :
      mark ∉ (config.tmpDir ++ slash :: filename).take (pathMax - 1) := by
    intro member
    have := List.mem_of_mem_take member
    simp [outside.1, outside.2, apart] at this
  have terminated : 0 ∉ localFilename config filename rank index := by
    rw [mem_localFilename (by decide) (by decide) (by decide)]
    exact whole (by decide) plain.terminated
  let path : LocalPath := ⟨_, nonempty, room, terminated⟩
  have plain_path : path.Plain :=
    (LocalPath.plain_iff_of_built rfl).mpr
      ⟨plain.not_command, whole (by decide) plain.no_newline⟩
  have dispatched : dispatch 0 (received (localFilename config filename rank index)) =
      .enqueuing 0 (localFilename config filename rank index) := plain_path.dispatch_bytes 0
  rw [handedName, dispatched]
  dsimp only
  rw [Queue.jobPath_of_short room]

end Names

section NewJobs

variable {τ : Type*} {before after : Session}

theorem newJobs_of_sent_eq (sent_eq : after.sent = before.sent) :
    (newJobs before after : List (Job Unit τ)) = [] := by
  rw [newJobs, sent_eq, List.drop_length]
  rfl

/-- A path sent becomes a job for the file it names. -/
theorem newJobs_of_concat {sent : SentPath} (sent_eq : after.sent = before.sent ++ [sent])
    {name : Bytes} (named : handedName sent.path = some name) {file : LocalFile}
    (present : after.dir name = some file) :
    (newJobs before after : List (Job Unit τ)) = [⟨name, (), file, .waiting⟩] := by
  rw [newJobs, sent_eq, List.drop_left]
  simp [named, present]

end NewJobs

namespace Conveys

variable {etype : Datatype} {view : FileView} {written log : List (ℕ × UInt8)}

/-- The local file holds the last byte written to each position, at its place. -/
theorem get_place (conveys : Conveys etype view written log) (forward : etype.Forward)
    {position : ℕ} (member : position ∈ written.map Prod.fst) :
    lastAssigned written position =
      some ((localFile etype written).get (etype.layout.place position).toNat) := by
  have kept : lastAssigned (etype.locate written) (etype.layout.place position).toNat =
      lastAssigned written position := by
    refine lastAssigned_map (fun position => (etype.layout.place position).toNat) ?_
    intro entry among same
    have here := forward position
    have there := forward entry.1
    exact conveys.apart (List.mem_map_of_mem among) member (by omega)
  obtain ⟨entry, among, rfl⟩ := List.mem_map.mp member
  obtain ⟨byte, assigned⟩ := Option.ne_none_iff_exists'.mp (Accounts.lastAssigned_ne_none among)
  rw [localFile, ByteFile.get_putAll, kept, assigned, Option.getD_some]

theorem drainable (conveys : Conveys etype view written log) (positive : 0 < etype.size)
    (forward : etype.Forward) : Drainable etype (localFile etype written) :=
  ⟨positive, forward, conveys.present, conveys.fits⟩

/-- The copy of the local file assigns to the bytes of the log what has been written to the view. -/
theorem lastAssigned_copyFrom (conveys : Conveys etype view written log) (forward : etype.Forward)
    (proper : view.Proper) {entry : ℕ × UInt8} (logged : entry ∈ log) :
    lastAssigned (copyFrom etype view (localFile etype written) 0) entry.1 =
      lastAssigned (view.locate written) entry.1 := by
  have injective := proper.byteAt_injective
  by_cases reached : ∃ position < Drain.reach etype.size (localFile etype written).size,
      view.byteAt position = entry.1
  · obtain ⟨position, below, here⟩ := reached
    have member : position ∈ written.map Prod.fst := by
      by_contra unwritten
      exact conveys.untouched position below unwritten entry logged here.symm
    have copied : lastAssigned (copyFrom etype view (localFile etype written) 0)
        (view.byteAt position) =
          if position < Drain.reach etype.size (localFile etype written).size then
            some ((localFile etype written).get (etype.layout.place position).toNat)
          else none := by
      rw [copyFrom, Nat.sub_zero, ← List.range_eq_range']
      exact lastAssigned_map_range injective ..
    have located : lastAssigned (view.locate written) (view.byteAt position) =
        lastAssigned written position :=
      lastAssigned_map view.byteAt fun _ _ same => injective same
    rw [← here, copied, if_pos below, located, conveys.get_place forward member]
  · have uncopied : lastAssigned (copyFrom etype view (localFile etype written) 0) entry.1 =
        none := by
      rw [lastAssigned_eq_none_iff]
      intro other among same
      obtain ⟨position, range, rfl⟩ := List.mem_map.mp among
      rw [List.mem_range'_1] at range
      exact reached ⟨position, by omega, same⟩
    have unlocated : lastAssigned (view.locate written) entry.1 = none := by
      rw [lastAssigned_eq_none_iff]
      intro other among same
      obtain ⟨source, member, rfl⟩ := List.mem_map.mp among
      exact reached ⟨source.1, conveys.whole source member, same⟩
    rw [uncopied, unlocated]

end Conveys

namespace Session

variable {config : Config} {session after : Session}

/-- A move keeps a handle tidy. -/
theorem Tidy.moved (tidy : Tidy config session) (moved : Moved session after) :
    Tidy config after := by
  obtain ⟨position, handle_eq⟩ := moved.handle_eq
  have alike : Alike session after :=
    ⟨by rw [handle_eq], by rw [handle_eq], by rw [handle_eq], moved.opened_eq, moved.sent_eq,
      moved.attrs_eq⟩
  refine ⟨alike.numbered tidy.numbered, alike.phase ?_ ?_ tidy.phase⟩
  · rw [handle_eq]
  · rw [handle_eq]
    rfl

/-- Handles for the same file and rank name their local files alike. -/
theorem localName_congr {handle handle' : Handle} (filename_eq : handle'.filename = handle.filename)
    (rank_eq : handle'.rank = handle.rank) (index : ℕ) :
    handle'.localName config index = handle.localName config index := by
  rw [Handle.localName, Handle.localName, Handle.localPath, Handle.localPath, filename_eq, rank_eq]

/-- A flush leaves the files of other names as they are. -/
theorem fileFlush_dir_of_ne (env : FlushEnv) (session : Session) {name : Bytes}
    (apart : name ≠ session.handle.localName config session.handle.viewIndex) :
    (fileFlush config env session).2.dir name = session.dir name := by
  rw [fileFlush]
  split
  · dsimp only
    split
    · rfl
    · split <;> exact Function.update_of_ne apart ..
  · rfl

end Session

/-- A job does not look at files of other names. -/
theorem Job.Sound.congr_dir {δ τ : Type*} {codec : Codec} {dir dir' : BufferDir} {job : Job δ τ}
    (sound : job.Sound codec dir) (same : dir' job.name = dir job.name) : job.Sound codec dir' :=
  ⟨same.trans sound.kept, sound.drains, sound.follows⟩

namespace Site

variable {τ : Type*} {config : Config} {codec : Codec} {filename : Bytes} {site : Site τ}

/-- What holds until the handle is freed: it is either in the byte view or has a legal view active,
whose local file holds what has been written to it. -/
structure Live (config : Config) (codec : Codec) (filename : Bytes) (site : Site τ) : Prop where
  tidy : Session.Tidy config site.file.session
  ordered : Session.Ordered config site.file.session
  filename_eq : site.file.session.handle.filename = filename
  names : ∀ job ∈ site.jobs, ∃ sent ∈ site.file.session.sent,
    job.name = site.file.session.handle.localName config sent.index
  proper : site.file.session.handle.state ≠ .fallback
  direct : site.file.session.handle.state ≠ .active →
    site.asked.IsByteView ∧ site.file.session.handle.fview = site.asked.fileView
  buffered : site.file.session.handle.state = .active → site.asked.Legal codec ∧
    ∃ attrs, Buffered config site.asked.etype (site.asked.asked codec) attrs site.file.session
      (localFile site.asked.etype.datatype site.written)

/-- What the current view still has to bring to the destination. -/
def buffer (site : Site τ) : List (ℕ × UInt8) :=
  if site.file.session.handle.state = .active ∧ site.file.session.freed = false then
    site.asked.fileView.locate site.written
  else []

/-- The invariant of a site. -/
structure Sound (config : Config) (codec : Codec) (filename : Bytes) (site : Site τ) : Prop where
  jobs : ∀ job ∈ site.jobs, job.Sound codec site.file.session.dir
  live : site.file.session.freed = false → site.Live config codec filename
  accounts : (∀ job ∈ site.jobs, job.stage ≠ .failed) →
    Accounts site.file.session.dest (site.jobs.map (Job.rest codec) ++ [site.buffer]) site.log

/-- The local file of the active view is fresh but for this view's attributes. -/
theorem Live.fresh (live : site.Live config codec filename)
    (active : site.file.session.handle.state = .active) :
    ∃ attrs, Buffered config site.asked.etype (site.asked.asked codec) attrs site.file.session
        (localFile site.asked.etype.datatype site.written) ∧
      (site.file.session.handle.localName config
        site.file.session.handle.viewIndex).length ≤ nameMax ∧
      site.file.session.handle.Uncut config site.file.session.handle.viewIndex ∧
      0 < site.file.session.handle.viewIndex ∧
      ∀ name, name ∉ attrNames (site.asked.asked codec) → attrs name = none := by
  obtain ⟨-, attrs, buffered⟩ := live.buffered active
  have present : Session.attrsAt config site.file.session site.file.session.handle.viewIndex =
      some attrs := by
    rw [Session.attrsAt, buffered.file_eq]
    rfl
  cases live.tidy.phase with
  | settled sent absent => rw [absent active] at present; cases present
  | @buffering earlier current buffering =>
      obtain ⟨opened_eq, -, index_eq, -, saved, short, uncut, attrs', present', fresh⟩ := buffering
      have positive := (live.tidy.numbered.bounded current (by simp [opened_eq])).1
      rw [index_eq] at short uncut present' positive
      obtain rfl := Option.some.inj (present.symm.trans present')
      rw [← saved, buffered.saved] at fresh
      exact ⟨attrs, buffered, short, uncut, positive, fresh⟩

/-- No job is at work on the local file of the active view. -/
theorem Live.job_name_ne (live : site.Live config codec filename)
    (active : site.file.session.handle.state = .active) {job : Job Unit τ}
    (member : job ∈ site.jobs) :
    job.name ≠ site.file.session.handle.localName config site.file.session.handle.viewIndex := by
  obtain ⟨sent, among, name_eq⟩ := live.names job member
  obtain ⟨-, -, short, uncut, -⟩ := live.fresh active
  rw [name_eq]
  exact Session.localName_ne _ short uncut
    ((Session.Orderly.tidy live.tidy).uncut_of_sent among) ((live.ordered.consistent.buffer active).2.2 sent among)

/-- The local file of the active view has been sent. -/
structure HandsOver (config : Config) (codec : Codec) (site : Site τ) (flushed : Session)
    (handed : LocalFile) : Prop where
  flushed_eq : flushed =
    { site.file.session with
      dir := Function.update site.file.session.dir
        (site.file.session.handle.localName config site.file.session.handle.viewIndex) (some handed)
      sent := site.file.session.sent ++ [⟨site.file.session.handle.viewIndex,
        site.file.session.handle.localPath config site.file.session.handle.viewIndex,
        handed.attrs⟩] }
  named : handedName
      (site.file.session.handle.localPath config site.file.session.handle.viewIndex) =
    some (site.file.session.handle.localName config site.file.session.handle.viewIndex)
  content_eq : handed.content = localFile site.asked.etype.datatype site.written
  rebuilt : rebuild codec handed.attrs = some (site.asked.etype.datatype, site.asked.fileView)

/-- A flush that succeeds hands over the local file with the metadata of its view. -/
theorem Live.handsOver (live : site.Live config codec filename) (plain : PlainNames config filename)
    (active : site.file.session.handle.state = .active) {env : FlushEnv} {flushed : Session}
    (outcome : Session.FlushOutcome config env site.file.session (.success, flushed)) :
    ∃ handed, HandsOver config codec site flushed handed := by
  obtain ⟨attrs, buffered, -, -, -, fresh⟩ := live.fresh active
  obtain ⟨legal, -⟩ := live.buffered active
  have named : handedName
      (site.file.session.handle.localPath config site.file.session.handle.viewIndex) =
      some (site.file.session.handle.localName config site.file.session.handle.viewIndex) := by
    refine handedName_localFilename ?_
    rw [live.filename_eq]
    exact plain
  generalize result_eq : (Ret.success, flushed) = result at outcome
  cases outcome with
  | idle inactive => exact absurd active inactive
  | failed => cases (Prod.mk.inj result_eq).1
  | @sent file marked _ present performed =>
      obtain rfl := (Prod.mk.inj result_eq).2
      obtain rfl := Option.some.inj (buffered.file_eq.symm.trans present)
      rw [buffered.saved] at performed
      obtain ⟨path, -, attrs_eq⟩ := setXattrsForBbview_of_fresh fresh performed
      obtain ⟨-, -, -, etype_short⟩ := setXattrsForBbview_success performed
      have rebuilt : rebuild codec marked =
          some (site.asked.etype.datatype, site.asked.fileView) := by
        rw [attrs_eq]
        exact rebuild_of_roundTrips (roundTrips_fresh _ legal.fits legal.nonempty) path etype_short
          legal.positive
      exact ⟨⟨localFile site.asked.etype.datatype site.written, marked⟩, rfl, named, rfl, rebuilt⟩

namespace HandsOver

variable {flushed : Session} {handed : LocalFile}
  (handsOver : HandsOver config codec site flushed handed) (legal : site.asked.Legal codec)
  (conveys : site.Conveys)
include handsOver legal conveys

/-- A local file that conveys what has been written can be drained. -/
theorem drains : handed.Drains codec := by
  intro types rebuilt
  obtain rfl := Option.some.inj (handsOver.rebuilt.symm.trans rebuilt)
  rw [handsOver.content_eq]
  exact conveys.drainable legal.positive legal.forward

/-- Its copy stands for what has been written to the view. -/
theorem copy_eq {entry : ℕ × UInt8} (logged : entry ∈ site.log) :
    lastAssigned (handed.copy codec) entry.1 =
      lastAssigned (site.asked.fileView.locate site.written) entry.1 := by
  simp only [LocalFile.copy, handsOver.rebuilt, handsOver.content_eq]
  exact conveys.lastAssigned_copyFrom legal.forward legal.proper logged

end HandsOver

/-- A call that installs no view and sends no path adds what it writes to the history. -/
theorem called_of_uninstalled {call : HandleCall} {after : OpenFile}
    (uninstalled : call.installed config codec site.file = none)
    (sent_eq : after.session.sent = site.file.session.sent) :
    site.called config codec call after =
      ⟨after, site.jobs, site.asked, site.written ++ call.entries site.file,
        site.log ++ site.asked.fileView.locate (call.entries site.file)⟩ := by
  rw [called, newJobs_of_sent_eq sent_eq, uninstalled]
  simp

/-- A write that moves the pointer only, but for what it stores in the local file. -/
theorem Live.moved (live : site.Live config codec filename) {after : OpenFile}
    {written log : List (ℕ × UInt8)} (moved : Moved site.file.session after.session)
    (buffered : after.session.handle.state = .active → site.asked.Legal codec ∧
      ∃ attrs, Buffered config site.asked.etype (site.asked.asked codec) attrs after.session
        (localFile site.asked.etype.datatype written)) :
    Live config codec filename ⟨after, site.jobs, site.asked, written, log⟩ := by
  obtain ⟨position, handle_eq⟩ := moved.handle_eq
  refine ⟨live.tidy.moved moved, live.ordered.moved moved, ?_, ?_, ?_, ?_, buffered⟩ <;> dsimp only
  · rw [handle_eq]
    exact live.filename_eq
  · rw [moved.sent_eq, handle_eq]
    exact live.names
  · rw [handle_eq]
    exact live.proper
  · rw [handle_eq]
    exact live.direct

/-- A write to the local file of the active view. -/
theorem Sound.buffered (sound : site.Sound config codec filename)
    (kept : site.file.session.freed = false) (active : site.file.session.handle.state = .active)
    {entries : List (ℕ × UInt8)} {after : OpenFile}
    (stored : Session.Stored site.file.session (site.file.session.handle.fview.locate entries)
      after.session) :
    Sound config codec filename ⟨after, site.jobs, site.asked, site.written ++ entries,
      site.log ++ site.asked.fileView.locate entries⟩ := by
  have live := sound.live kept
  have moved := stored.moved
  obtain ⟨legal, attrs, buffered⟩ := live.buffered active
  obtain ⟨position, after_eq⟩ := stored
  have now : Buffered config site.asked.etype (site.asked.asked codec) attrs after.session
      (localFile site.asked.etype.datatype (site.written ++ entries)) := by
    have put := (buffered.store (site.file.session.handle.fview.locate entries)).move position
    rw [(Session.store_alike _ _).2, ← after_eq, buffered.fview_eq] at put
    rw [localFile, Datatype.locate, List.map_append, ByteFile.putAll_append]
    exact put
  have dest_eq : after.session.dest = site.file.session.dest := by
    rw [after_eq, Session.store, buffered.fd_eq]
  have dir_eq (job : Job Unit τ) (member : job ∈ site.jobs) :
      after.session.dir job.name = site.file.session.dir job.name := by
    rw [after_eq, Session.store, buffered.fd_eq]
    exact Function.update_of_ne (live.job_name_ne active member) ..
  refine ⟨fun job member => (sound.jobs job member).congr_dir (dir_eq job member), fun _ => ?_,
    fun healthy => ?_⟩
  · exact live.moved moved fun _ => ⟨legal, attrs, now⟩
  · have accounts := (sound.accounts healthy).buffer (site.asked.fileView.locate entries)
    rw [buffer, if_pos ⟨active, kept⟩] at accounts
    rw [buffer, if_pos ⟨now.active, moved.freed_eq.trans kept⟩, FileView.locate_append]
    dsimp only
    rw [dest_eq]
    exact accounts

/-- A write to the destination. -/
theorem Sound.direct (sound : site.Sound config codec filename)
    (kept : site.file.session.freed = false) (inactive : site.file.session.handle.state ≠ .active)
    {entries : List (ℕ × UInt8)} {after : OpenFile}
    (stored : Session.Stored site.file.session (site.file.session.handle.fview.locate entries)
      after.session)
    (ahead : ∀ job ∈ site.jobs, ∀ entry ∈ site.asked.fileView.locate entries,
      lastAssigned (job.rest codec) entry.1 = none) :
    Sound config codec filename ⟨after, site.jobs, site.asked, site.written ++ entries,
      site.log ++ site.asked.fileView.locate entries⟩ := by
  have live := sound.live kept
  have moved := stored.moved
  obtain ⟨-, fview_eq⟩ := live.direct inactive
  have fd_eq := live.ordered.consistent.destination inactive
  obtain ⟨position, after_eq⟩ := stored
  rw [Session.store, fd_eq, fview_eq] at after_eq
  have handle_eq : after.session.handle = { site.file.session.handle with position } := by
    rw [after_eq]
  have inactive' : after.session.handle.state ≠ .active := by
    rw [handle_eq]
    exact inactive
  refine ⟨fun job member => (sound.jobs job member).congr_dir (by rw [after_eq]), fun _ => ?_,
    fun healthy => ?_⟩
  · exact live.moved moved fun active => absurd active inactive'
  · have accounts := sound.accounts healthy
    rw [buffer, if_neg (fun both => inactive both.1), Accounts.concat_nil_iff] at accounts
    rw [buffer, if_neg (fun both => inactive' both.1), Accounts.concat_nil_iff]
    dsimp only
    rw [after_eq]
    refine accounts.write fun other among entry member => ?_
    obtain ⟨job, job_mem, rfl⟩ := List.mem_map.mp among
    exact ahead job job_mem entry member

/-- Nothing is left of the current view but the jobs, the new one among them. -/
structure Left (config : Config) (codec : Codec) (site : Site τ) (left : Session)
    (new : List (Job Unit τ)) : Prop where
  jobs : ∀ job ∈ site.jobs ++ new, job.Sound codec left.dir
  names : ∀ job ∈ site.jobs ++ new, ∃ sent ∈ left.sent,
    job.name = site.file.session.handle.localName config sent.index
  newJobs_eq : ∀ after : Session, after.sent = left.sent →
    (∀ job ∈ new, after.dir job.name = left.dir job.name) →
      newJobs site.file.session after = new
  accounts : (∀ job ∈ site.jobs ++ new, job.stage ≠ .failed) →
    Accounts left.dest ((site.jobs ++ new).map (Job.rest codec)) site.log

/-- A flush that succeeds leaves the jobs. -/
theorem Sound.flushed (sound : site.Sound config codec filename)
    (kept : site.file.session.freed = false) (plain : PlainNames config filename) (env : FlushEnv)
    {flushed : Session}
    (outcome : Session.FlushOutcome config env site.file.session (.success, flushed))
    (conveys : site.file.session.handle.state = .active → site.Conveys) :
    ∃ new, Left config codec site flushed new := by
  have live := sound.live kept
  by_cases active : site.file.session.handle.state = .active
  · obtain ⟨handed, handsOver⟩ := live.handsOver plain active outcome
    obtain ⟨legal, -⟩ := live.buffered active
    have drains := handsOver.drains legal (conveys active)
    have copy_eq (entry : ℕ × UInt8) (logged : entry ∈ site.log) :=
      handsOver.copy_eq legal (conveys active) logged
    obtain ⟨rfl, named, -, -⟩ := handsOver
    set name := site.file.session.handle.localName config site.file.session.handle.viewIndex
      with name_eq
    refine ⟨[⟨name, (), handed, .waiting⟩], ?_, ?_, ?_, ?_⟩
    · intro job member
      rcases List.mem_append.mp member with old | new
      · exact (sound.jobs job old).congr_dir
          (Function.update_of_ne (live.job_name_ne active old) ..)
      · obtain rfl := List.mem_singleton.mp new
        exact ⟨Function.update_self .., drains, trivial⟩
    · intro job member
      rcases List.mem_append.mp member with old | new
      · obtain ⟨sent, among, here⟩ := live.names job old
        exact ⟨sent, List.mem_append_left _ among, here⟩
      · obtain rfl := List.mem_singleton.mp new
        exact ⟨_, List.mem_append_right _ (List.mem_singleton_self _), name_eq⟩
    · intro after sent_eq dir_eq
      refine newJobs_of_concat sent_eq named ?_
      rw [dir_eq _ (List.mem_singleton_self _)]
      exact Function.update_self ..
    · intro healthy
      have accounts := sound.accounts fun job member =>
        healthy job (List.mem_append_left _ member)
      rw [buffer, if_pos ⟨active, kept⟩] at accounts
      rw [List.map_append]
      exact accounts.replace copy_eq
  · have flushed_eq : flushed = site.file.session := by
      generalize result_eq : (Ret.success, flushed) = result at outcome
      cases outcome with
      | idle => exact (Prod.mk.inj result_eq).2
      | failed runs => exact absurd runs active
      | sent runs => exact absurd runs active
    subst flushed_eq
    refine ⟨[], ?_, ?_, fun after sent_eq _ => newJobs_of_sent_eq sent_eq, fun healthy => ?_⟩
    · rw [List.append_nil]
      exact sound.jobs
    · rw [List.append_nil]
      exact live.names
    · rw [List.append_nil] at healthy ⊢
      have accounts := sound.accounts healthy
      rw [buffer, if_neg (fun both => active both.1)] at accounts
      exact Accounts.concat_nil_iff.mp accounts

/-- A site whose current view has written nothing. -/
theorem Left.sound {left : Session} {new : List (Job Unit τ)} (leaves : Left config codec site left new)
    {after : OpenFile} {asked : ViewArgs} {written : List (ℕ × UInt8)}
    (dest_eq : after.session.dest = left.dest)
    (dir_eq : ∀ job ∈ site.jobs ++ new, after.session.dir job.name = left.dir job.name)
    (unbuffered : buffer ⟨after, site.jobs ++ new, asked, written, site.log⟩ = [])
    (live : after.session.freed = false →
      Live config codec filename ⟨after, site.jobs ++ new, asked, written, site.log⟩) :
    Sound config codec filename ⟨after, site.jobs ++ new, asked, written, site.log⟩ := by
  refine ⟨fun job member => (leaves.jobs job member).congr_dir (dir_eq job member), live,
    fun healthy => ?_⟩
  rw [unbuffered, Accounts.concat_nil_iff]
  dsimp only
  rw [dest_eq]
  exact leaves.accounts healthy

/-- A flush that fails marks the local file at most. -/
theorem Sound.unflushed (sound : site.Sound config codec filename)
    (kept : site.file.session.freed = false) {env : FlushEnv} {ret : Ret} {after : Session}
    (fails : ret ≠ .success)
    (flush_eq : Session.fileFlush config env site.file.session = (ret, after)) :
    Sound config codec filename { site with file := { site.file with session := after } } ∧
      after.sent = site.file.session.sent := by
  have live := sound.live kept
  have flushed := live.tidy.fileFlush env
  have outcome := Session.fileFlush_outcome config env site.file.session
  have elsewhere {name : Bytes} (apart : name ≠ site.file.session.handle.localName config
      site.file.session.handle.viewIndex) : after.dir name = site.file.session.dir name := by
    have same := Session.fileFlush_dir_of_ne env site.file.session apart
    rwa [flush_eq] at same
  rw [flush_eq] at flushed outcome
  have ordered := live.ordered.failed outcome fails
  have tidy : Session.Tidy config after := ⟨flushed.numbered, flushed.failure fails⟩
  generalize result_eq : (ret, after) = result at outcome
  cases outcome with
  | idle => exact absurd (Prod.mk.inj result_eq).1 fails
  | sent => exact absurd (Prod.mk.inj result_eq).1 fails
  | @failed dir active contents =>
      obtain ⟨-, rfl⟩ := Prod.mk.inj result_eq
      refine ⟨⟨fun job member => (sound.jobs job member).congr_dir
        (elsewhere (live.job_name_ne active member)), fun _ => ?_, sound.accounts⟩, rfl⟩
      obtain ⟨legal, attrs, buffered⟩ := live.buffered active
      have content_eq := contents (site.file.session.handle.localName config
        site.file.session.handle.viewIndex)
      rw [buffered.file_eq] at content_eq
      obtain ⟨⟨content, marked⟩, present, same⟩ := Option.map_eq_some_iff.mp content_eq
      obtain rfl : content = localFile site.asked.etype.datatype site.written := same
      refine ⟨tidy, ordered, live.filename_eq, live.names, live.proper, live.direct, fun _ => ?_⟩
      exact ⟨legal, marked, active, buffered.fd_eq, buffered.fview_eq, buffered.saved, present⟩

end Site

end BBView
