import BBView.ProgramOrder

/-!
# Reads that are not refused

A read is refused while a view is active.  Back in the byte view it goes to the destination, whether
or not the views handed over have been drained: it sees what the handle has written once no job still
has to write a byte that it addresses.
-/

namespace BBView

namespace Session

variable {session : Session} {position len : ℕ}

/-- The reply hands out the bytes of the file behind the descriptor. -/
structure Fetches (session : Session) (position len : ℕ) (reply : Reply) : Prop where
  ret : reply.1 = .success
  delivers : reply.2.1 = some ⟨session.handle.fd, session.fetch position len⟩

theorem fetches_ompioRead (session : Session) {env : ReadEnv} (succeeds : env.ret = .success)
    (len : ℕ) : Fetches session session.handle.position len (ompioRead env len session) := by
  refine ⟨succeeds, ?_⟩
  simp [ompioRead, deliver, succeeds]

theorem fetches_ompioReadAt (session : Session) {env : ReadEnv} (succeeds : env.ret = .success)
    (offset len : ℕ) :
    Fetches session (offset * session.handle.fview.etypeSize) len
      (ompioReadAt env offset len session) := by
  refine ⟨succeeds, ?_⟩
  simp [ompioReadAt, deliver, succeeds]

theorem fetches_sharedfpRead (session : Session) {shared : SharedEnv} {env : ReadEnv}
    (present : shared.present = true) (succeeds : env.ret = .success) (len : ℕ) :
    Fetches session shared.position len (sharedfpRead shared env len session) := by
  rw [sharedfpRead, if_pos present]
  refine ⟨succeeds, ?_⟩
  simp [deliver, succeeds]

theorem Fetches.refuseActive {body : Session → Reply}
    (fetches : Fetches session position len (body session))
    (inactive : session.handle.state ≠ .active) :
    Fetches session position len (Session.refuseActive body session) := by
  rwa [Session.refuseActive, if_neg inactive]

end Session

/-- The reply of a read hands out the bytes of the file behind the descriptor, or holds them back
until its end. -/
def OpenFile.Fetches (file : OpenFile) (position len : ℕ) (reply : OpenFile.Reply) : Prop :=
  reply.1 = .success ∧ ∃ delivery : Delivery,
    (reply.2.1 = some delivery ∨ reply.2.2.Holds delivery) ∧
      delivery = ⟨file.session.handle.fd, file.session.fetch position len⟩

namespace OpenFile

variable {file : OpenFile} {position len : ℕ}

theorem fetches_onSession {operation : Session → Session.Reply}
    (fetches : Session.Fetches file.session position len (operation file.session)) :
    Fetches file position len (onSession operation file) :=
  ⟨fetches.ret, _, .inl fetches.delivers, rfl⟩

theorem fetches_splitBegin {inUse : Ret} {operation : Session → Session.Reply}
    (free : file.splitCollInUse ≠ true)
    (fetches : Session.Fetches file.session position len (operation file.session)) :
    Fetches file position len (splitBegin inUse operation file) := by
  rw [splitBegin, if_neg free]
  refine ⟨fetches.ret, _, .inr (.inl ?_), rfl⟩
  dsimp only
  rw [if_pos fetches.ret, fetches.delivers]

end OpenFile

/-- What every read entry point fetches where it is not refused. -/
theorem ReadCall.fetches {file : OpenFile} {call : ReadCall} {position len : ℕ}
    (inactive : file.session.handle.state ≠ .active)
    (fetched : call.fetched file = some (position, len, .success)) :
    file.Fetches position len (call.perform file) := by
  have permitted {body : OpenFile → OpenFile.Reply}
      (fetches : file.Fetches position len (body file)) :
      file.Fetches position len (OpenFile.refuseActive body file) := by
    rwa [OpenFile.refuseActive, if_neg inactive]
  cases call with
  | read | iread | readAll | ireadAll =>
      simp only [ReadCall.fetched, Option.some.injEq, Prod.mk.injEq] at fetched
      obtain ⟨rfl, rfl, succeeds⟩ := fetched
      exact OpenFile.fetches_onSession
        ((Session.fetches_ompioRead file.session succeeds _).refuseActive inactive)
  | readAt | ireadAt | readAtAll | ireadAtAll =>
      simp only [ReadCall.fetched, Option.some.injEq, Prod.mk.injEq] at fetched
      obtain ⟨rfl, rfl, succeeds⟩ := fetched
      exact OpenFile.fetches_onSession
        ((Session.fetches_ompioReadAt file.session succeeds _ _).refuseActive inactive)
  | readShared | ireadShared | readOrdered =>
      simp only [ReadCall.fetched, Option.ite_none_right_eq_some, Option.some.injEq,
        Prod.mk.injEq] at fetched
      obtain ⟨present, rfl, rfl, succeeds⟩ := fetched
      exact OpenFile.fetches_onSession
        ((Session.fetches_sharedfpRead file.session present succeeds _).refuseActive inactive)
  | readOrderedBegin shared env len =>
      simp only [ReadCall.fetched, Option.ite_none_right_eq_some, Option.some.injEq,
        Prod.mk.injEq] at fetched
      obtain ⟨present, rfl, rfl, succeeds⟩ := fetched
      have fetches := Session.fetches_sharedfpRead file.session present succeeds len
      apply permitted
      refine ⟨fetches.ret, _, .inr (.inr ?_), rfl⟩
      show (Session.sharedfpRead shared env len file.session).2.1.or file.ordered = _
      rw [fetches.delivers]
      rfl
  | readAllBegin =>
      simp only [ReadCall.fetched, Option.ite_none_left_eq_some, Option.some.injEq,
        Prod.mk.injEq] at fetched
      obtain ⟨free, rfl, rfl, succeeds⟩ := fetched
      exact permitted (OpenFile.fetches_splitBegin free
        ((Session.fetches_ompioRead file.session succeeds _).refuseActive inactive))
  | readAtAllBegin =>
      simp only [ReadCall.fetched, Option.ite_none_left_eq_some, Option.some.injEq,
        Prod.mk.injEq] at fetched
      obtain ⟨free, rfl, rfl, succeeds⟩ := fetched
      exact permitted (OpenFile.fetches_splitBegin free
        (Session.fetches_ompioReadAt file.session succeeds _ _))
  | readOrderedEnd | readAllEnd | readAtAllEnd => cases fetched

/-- The byte view shows every byte at its own offset. -/
theorem ViewArgs.IsByteView.byteAt {args : ViewArgs} (byte : args.IsByteView) (position : ℕ) :
    args.fileView.byteAt position = position := by
  obtain ⟨disp_eq, -, filetype_eq⟩ := byte
  have zero : (0 : Int64).toInt = 0 := rfl
  rw [FileView.byteAt, address_fileView, disp_eq, filetype_eq, place_mpiByte, zero]
  omega

/-- Bytes in front of the end of the file are fetched. -/
theorem Session.getElem?_fetch {session : Session} {file : ByteFile} (file_eq : session.file = some file)
    (direct : ∀ position, session.handle.fview.byteAt position = position) {position len shift : ℕ}
    (below : shift < len) (inside : position + shift < file.size) :
    (session.fetch position len)[shift]? = some (file.get (position + shift)) := by
  obtain ⟨rest, rfl⟩ := Nat.exists_eq_add_of_lt below
  simp only [fetch, file_eq, direct]
  have split : shift + rest + 1 = (shift + 1) + rest := by omega
  rw [split, List.range_add, List.map_append, List.takeWhile_append_of_pos, List.map_append,
    List.getElem?_append_left]
  · simp
  · simp
  · intro offset member
    obtain ⟨earlier, among, rfl⟩ := List.mem_map.mp member
    have := List.mem_range.mp among
    exact decide_eq_true (by omega)

namespace Site

variable {τ : Type*} [DecidableEq τ] {config : Config} {codec : Codec} {filename : Bytes}
  {site : Site τ}

/-- A read of the byte at offset 8. -/
def byteRead : ReadCall := .readAt ⟨.success, 0, 0⟩ 8 1

omit [DecidableEq τ] in
theorem Sound.fetched_byteRead (sound : site.Sound config codec filename)
    (kept : site.file.session.freed = false) (asked_eq : site.asked = .initial)
    (state_eq : site.file.session.handle.state = .default) :
    byteRead.fetched site.file = some (8, 1, .success) := by
  have fview_eq := ((sound.live kept).direct (by rw [state_eq]; nofun)).2
  rw [asked_eq] at fview_eq
  show some (8 * site.file.session.handle.fview.etypeSize, 1, Ret.success) = _
  rw [fview_eq]
  rfl

end Site

end BBView
