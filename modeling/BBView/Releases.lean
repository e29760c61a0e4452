import BBView.Foundation.Holdings
import BBView.Header

/-!
# What the threads of the daemon hold

`execute` opens the local file, allocates the buffers of the metadata, rebuilds the two datatypes and
opens the destination; it leaves by one of three labels.  What a thread acquires it also uses and
releases itself, so the threads may be looked at one by one.
-/

namespace BBView

/-- What the threads acquire. -/
inductive DaemonResource
  /-- `src_fd` -/
  | srcFd
  /-- `et_buf` -/
  | etBuf
  /-- `dt_buf` -/
  | dtBuf
  | etype
  | dtype
  | buf
  | fh
  /-- `sock_fd` -/
  | sockFd
  | tids
  | args
  /-- `cfd`, which goes on as `term_client_fd` -/
  | cfd
  deriving DecidableEq

/-! ## `execute` -/

/-- The calls of `execute`. -/
inductive ExecuteCall
  /-- `open` of the local file -/
  | openSrc
  | mallocEtBuf
  /-- `fgetxattr` of `BBVIEW_ATTR_ETYPE` -/
  | getEtype
  | mallocDtBuf
  /-- `fgetxattr` of a part of `BBVIEW_ATTR_DATATYPE` -/
  | getDatatype (index : ℕ)
  /-- `fgetxattr` of `BBVIEW_ATTR_DISP` -/
  | getDisp
  | createEtype
  | createDtype
  | typeSize
  | mallocBuf
  /-- `ompi_file_open` of the destination -/
  | openFile
  | setView
  /-- `mca_io_ompio_file_write` of what a `read` has returned -/
  | write (index : ℕ)
  /-- The last `read`, which returns 0 where it succeeds. -/
  | readEnd

/-- What the calls give, and what is released behind the label that a failure leads to. -/
def executeLadder : Ladder ExecuteCall DaemonResource where
  gives
    | .openSrc => some .srcFd
    | .mallocEtBuf => some .etBuf
    | .mallocDtBuf => some .dtBuf
    | .createEtype => some .etype
    | .createDtype => some .dtype
    | .mallocBuf => some .buf
    | .openFile => some .fh
    | _ => none
  cleanup
    | .openSrc | .mallocEtBuf | .mallocDtBuf => []
    | .openFile => [.buf, .srcFd]
    | .setView | .write _ | .readEnd => [.fh, .buf, .srcFd]
    | _ => [.srcFd]

/-- How the calls of a run of `execute` turn out. -/
structure ExecuteRun where
  succeeds : ExecuteCall → Bool
  /-- `etype_size`; a division by zero would end the process. -/
  etypeSize : ℕ
  etypeSize_pos : 0 < etypeSize
  /-- What the `read` calls return before the last one. -/
  rsizes : List ℕ

namespace ExecuteRun

open Ladder.Rung Use

variable (run : ExecuteRun)

/-- How often the loop over the parts of the datatype may run. -/
def maxParts : ℕ := targetBufferSize / maxXattrValueSize

/-- The loop over the parts of the datatype. -/
def partRungs : (remaining index : ℕ) → List (Ladder.Rung ExecuteCall DaemonResource)
  | 0, _ => []
  | remaining + 1, index =>
      if run.succeeds (.getDatatype index) = true then
        act (borrow .srcFd) :: act (borrow .dtBuf) :: partRungs remaining (index + 1)
      else if index = 0 then [act (borrow .srcFd), need (.getDatatype 0)]
      else [act (borrow .srcFd)]

/-- The loop over the pieces of the local file. -/
def pieceRungs : (index : ℕ) → List ℕ → List (Ladder.Rung ExecuteCall DaemonResource)
  | _, [] => []
  | index, rsize :: rsizes =>
      [act (borrow .srcFd), act (borrow .buf)] ++
        (if rsize - rsize % run.etypeSize = 0 then []
        else [act (borrow .fh), act (borrow .buf), act (borrow .etype), need (.write index)]) ++
        pieceRungs (index + 1) rsizes

/-- The copy loop of `execute` and what follows. -/
def copyRungs : List (Ladder.Rung ExecuteCall DaemonResource) :=
  run.pieceRungs 0 run.rsizes ++
    [act (borrow .srcFd), act (borrow .buf), need .readEnd, act (release .fh), act (release .buf),
      act (release .srcFd)]

/-- `execute` from where it has all parts of the datatype. -/
def typeRungs : List (Ladder.Rung ExecuteCall DaemonResource) :=
  [act (borrow .srcFd), need .getDisp, act (borrow .etBuf), need .createEtype, act (borrow .dtBuf),
    need .createDtype, act (borrow .etype), need .typeSize, need .mallocBuf, need .openFile,
    act (borrow .fh), act (borrow .etype), act (borrow .dtype), need .setView] ++ run.copyRungs

/-- `execute` -/
def rungs : List (Ladder.Rung ExecuteCall DaemonResource) :=
  [need .openSrc, attempt .mallocEtBuf, act (borrow .srcFd), need .getEtype, act (borrow .etBuf),
    attempt .mallocDtBuf] ++
    (run.partRungs maxParts 0 ++ run.typeRungs)

/-- What `execute` does with its resources. -/
def uses : List (Use DaemonResource) := executeLadder.uses run.succeeds run.rungs

/-- What is never released: the buffers of the metadata and the datatypes, as far as `execute` gets. -/
def leaked : Finset DaemonResource :=
  if run.succeeds .openSrc = false then ∅
  else if run.succeeds .getEtype = false then
    if run.succeeds .mallocEtBuf = true then {.etBuf} else ∅
  else if run.succeeds (.getDatatype 0) = false then
    if run.succeeds .mallocDtBuf = true then {.dtBuf, .etBuf} else {.etBuf}
  else if run.succeeds .getDisp = false ∨ run.succeeds .createEtype = false then {.dtBuf, .etBuf}
  else if run.succeeds .createDtype = false then {.etype, .dtBuf, .etBuf}
  else {.dtype, .etype, .dtBuf, .etBuf}

/-- A buffer is used although its `malloc` has failed. -/
def UsesNull : Prop :=
  run.succeeds .openSrc = true ∧ run.succeeds .getEtype = true ∧
    (run.succeeds .mallocEtBuf = false ∨
      run.succeeds .mallocDtBuf = false ∧ run.succeeds (.getDatatype 0) = true)

variable {run} {P : Finset DaemonResource → Prop} {held : Finset DaemonResource}
  {rungs : List (Ladder.Rung ExecuteCall DaemonResource)}

/-- Later parts are read as long as there are any. -/
theorem ends_parts {remaining index : ℕ} (later : index ≠ 0) (source : .srcFd ∈ held)
    (buffer : .dtBuf ∈ held) (rest : Ends P held (executeLadder.uses run.succeeds rungs)) :
    Ends P held (executeLadder.uses run.succeeds (run.partRungs remaining index ++ rungs)) := by
  induction remaining generalizing index with
  | zero => exact rest
  | succ remaining ih =>
      rw [partRungs]
      by_cases found : run.succeeds (.getDatatype index) = true
      · rw [if_pos found]
        exact .borrow source (.borrow buffer (ih (Nat.succ_ne_zero index)))
      · rw [if_neg found, if_neg later]
        exact .borrow source rest

theorem ends_pieces {index : ℕ} (rsizes : List ℕ) (source : .srcFd ∈ held) (buffer : .buf ∈ held)
    (file : .fh ∈ held) (type : .etype ∈ held) (fails : P (held \ {.fh, .buf, .srcFd}))
    (rest : Ends P held (executeLadder.uses run.succeeds rungs)) :
    Ends P held (executeLadder.uses run.succeeds (run.pieceRungs index rsizes ++ rungs)) := by
  induction rsizes generalizing index with
  | nil => exact rest
  | cons rsize rsizes ih =>
      rw [pieceRungs, List.append_assoc, List.append_assoc]
      refine .borrow source (.borrow buffer ?_)
      split
      · exact ih
      · refine .borrow file (.borrow buffer (.borrow type ?_))
        refine Ladder.ends_need_none rfl ?_ ?_ (fun _ => ?_) fun _ => ih
        · simp [executeLadder]
        · simp [executeLadder, file, buffer, source]
        · simpa [executeLadder] using fails

theorem ends_copyRungs : Ends (fun left => left = {.dtype, .etype, .dtBuf, .etBuf})
    {.fh, .buf, .dtype, .etype, .dtBuf, .etBuf, .srcFd}
    (executeLadder.uses run.succeeds run.copyRungs) := by
  rw [copyRungs]
  refine ends_pieces _ (by simp) (by simp) (by simp) (by simp) rfl ?_
  refine .borrow (by simp) (.borrow (by simp) ?_)
  refine Ladder.ends_need_none rfl (by simp [executeLadder]) (by simp [executeLadder])
    (fun _ => rfl) fun _ => ?_
  refine .release (by simp) (.release ?_ (.release ?_ (.nil rfl)))
  · simp
  · simp

/-- From the types on, where the reads before have succeeded. -/
theorem ends_typeRungs (opened : run.succeeds .openSrc = true)
    (etype : run.succeeds .getEtype = true) (dtype : run.succeeds (.getDatatype 0) = true) :
    Ends (fun left => left = run.leaked) {.dtBuf, .etBuf, .srcFd}
      (executeLadder.uses run.succeeds run.typeRungs) := by
  have leaked_eq : run.leaked =
      if run.succeeds .getDisp = false ∨ run.succeeds .createEtype = false then {.dtBuf, .etBuf}
      else if run.succeeds .createDtype = false then {.etype, .dtBuf, .etBuf}
      else {.dtype, .etype, .dtBuf, .etBuf} := by
    simp only [leaked, opened, etype, dtype, Bool.true_eq_false, if_false]
  rw [leaked_eq, typeRungs]
  refine .borrow (by simp) (Ladder.ends_need_none rfl (List.nodup_singleton _)
    (by simp [executeLadder]) (fun fails => ?_) fun disp => ?_)
  · rw [if_pos (.inl fails)]
    rfl
  refine .borrow (by simp) (Ladder.ends_need rfl (by simp) (List.nodup_singleton _)
    (by simp [executeLadder]) (fun fails => ?_) fun createEtype => ?_)
  · rw [if_pos (.inr fails)]
    rfl
  rw [if_neg (by simp [disp, createEtype])]
  refine .borrow (by simp) (Ladder.ends_need rfl (by simp) (List.nodup_singleton _)
    (by simp [executeLadder]) (fun fails => ?_) fun createDtype => ?_)
  · rw [if_pos fails]
    rfl
  rw [if_neg (by simp [createDtype])]
  refine .borrow (by simp) (Ladder.ends_need_none rfl (List.nodup_singleton _)
    (by simp [executeLadder]) (fun _ => rfl) fun _ => ?_)
  refine Ladder.ends_need rfl (by simp) (List.nodup_singleton _) (by simp [executeLadder])
    (fun _ => rfl) fun _ => ?_
  refine Ladder.ends_need rfl (by simp) (by simp [executeLadder]) (by simp [executeLadder])
    (fun _ => rfl) fun _ => ?_
  refine .borrow (by simp) (.borrow (by simp) (.borrow (by simp) ?_))
  exact Ladder.ends_need_none rfl (by simp [executeLadder]) (by simp [executeLadder])
    (fun _ => rfl) fun _ => ends_copyRungs

/-- `execute` uses and releases only what it holds, and leaves what is never released. -/
theorem ends_uses (noNull : ¬ run.UsesNull) : Ends (fun left => left = run.leaked) ∅ run.uses := by
  rw [uses, ExecuteRun.rungs]
  refine Ladder.ends_need rfl (Finset.notMem_empty _) List.nodup_nil nofun
    (fun unopened => ?_) fun opened => ?_
  · simp [leaked, unopened, executeLadder]
  refine Ladder.ends_attempt rfl (by simp) (fun noEtBuf => ?_) fun etBuf => ?_
  · refine .borrow (by simp) (Ladder.ends_need_none rfl (List.nodup_singleton _)
      (by simp [executeLadder]) (fun noEtype => ?_) fun etype => ?_)
    · simp [leaked, opened, noEtype, noEtBuf, executeLadder]
    · exact absurd ⟨opened, etype, .inl noEtBuf⟩ noNull
  refine .borrow (by simp) (Ladder.ends_need_none rfl (List.nodup_singleton _)
    (by simp [executeLadder]) (fun noEtype => ?_) fun etype => ?_)
  · simp only [leaked, opened, noEtype, etBuf]
    rfl
  refine .borrow (by simp) (Ladder.ends_attempt rfl (by simp) (fun noDtBuf => ?_) fun dtBuf => ?_)
  · have noParts : run.succeeds (.getDatatype 0) = false := by
      by_contra found
      exact noNull ⟨opened, etype, .inr ⟨noDtBuf, by simpa using found⟩⟩
    rw [show maxParts = 63 + 1 from rfl, partRungs, if_neg (by simp [noParts]), if_pos rfl]
    refine .borrow (by simp) (Ladder.ends_need_none rfl (List.nodup_singleton _)
      (by simp [executeLadder]) (fun _ => ?_) fun found => ?_)
    · simp only [leaked, opened, etype, noParts, noDtBuf]
      rfl
    · cases noParts.symm.trans found
  · rw [show maxParts = 63 + 1 from rfl, partRungs]
    by_cases found : run.succeeds (.getDatatype 0) = true
    · rw [if_pos found]
      refine .borrow (by simp) (.borrow (by simp) ?_)
      exact ends_parts (Nat.succ_ne_zero 0) (by simp) (by simp) (ends_typeRungs opened etype found)
    · rw [if_neg found, if_pos rfl]
      have noParts : run.succeeds (.getDatatype 0) = false := by simpa using found
      refine .borrow (by simp) (Ladder.ends_need_none rfl (List.nodup_singleton _)
        (by simp [executeLadder]) (fun _ => ?_) fun succeeds => absurd succeeds found)
      simp only [leaked, opened, etype, noParts, dtBuf]
      rfl

/-- Otherwise a buffer that is not there is used. -/
theorem replay_uses_of_usesNull (null : run.UsesNull) : replay ∅ run.uses = none := by
  obtain ⟨opened, etype, missing⟩ := null
  have past (later : List (Ladder.Rung ExecuteCall DaemonResource)) :
      executeLadder.uses run.succeeds (need .getEtype :: act (borrow .etBuf) :: later) =
        borrow .etBuf :: executeLadder.uses run.succeeds later := by
    rw [Ladder.uses, if_pos etype]
    rfl
  rw [uses, ExecuteRun.rungs, List.cons_append, Ladder.uses, if_pos opened, List.cons_append,
    Ladder.uses]
  split
  · rename_i etBuf
    obtain ⟨noDtBuf, found⟩ := missing.resolve_left (by simp [etBuf])
    have without (later : List (Ladder.Rung ExecuteCall DaemonResource)) :
        executeLadder.uses run.succeeds (attempt .mallocDtBuf :: later) =
          executeLadder.uses run.succeeds later := by
      rw [Ladder.uses, if_neg (by simp [noDtBuf])]
    change replay ∅ (acquire .srcFd :: acquire .etBuf :: borrow .srcFd ::
      executeLadder.uses run.succeeds (need .getEtype :: act (borrow .etBuf) ::
        attempt .mallocDtBuf :: (run.partRungs (63 + 1) 0 ++ run.typeRungs))) = none
    rw [past, without, partRungs, if_pos found, replay_acquire (Finset.notMem_empty _),
      replay_acquire (by simp), replay_borrow (by simp), replay_borrow (by simp)]
    refine (replay_borrow ?_).trans (replay_borrow_eq_none ?_)
    · simp
    · simp
  · change replay ∅ (acquire .srcFd :: borrow .srcFd ::
      executeLadder.uses run.succeeds (need .getEtype :: act (borrow .etBuf) ::
        attempt .mallocDtBuf :: (run.partRungs (63 + 1) 0 ++ run.typeRungs))) = none
    rw [past, replay_acquire (Finset.notMem_empty _), replay_borrow (by simp)]
    exact replay_borrow_eq_none (by simp)

variable (run) in
/-- No descriptor and no copy buffer is among what is never released. -/
theorem leaked_subset : run.leaked ⊆ {.dtype, .etype, .dtBuf, .etBuf} := by
  rw [leaked]
  intro resource member
  split_ifs at member <;> simp_all

end ExecuteRun

/-! ## The main thread -/

/-- The calls of `create_socket` and `main`. -/
inductive MainCall
  | socket
  | bind
  | listen
  | callocTids
  | callocArgs
  | pthreadCreate (i : ℕ)

/-- What the calls give; `create_socket` closes its socket where it fails, and `main` returns at once
where a thread cannot be created. -/
def mainLadder : Ladder MainCall DaemonResource where
  gives
    | .socket => some .sockFd
    | .callocTids => some .tids
    | .callocArgs => some .args
    | _ => none
  cleanup
    | .bind | .listen => [.sockFd]
    | _ => []

/-- What `accept` and the `read` behind it come to. -/
inductive Accepted
  /-- `EINTR` -/
  | interrupted
  | failed
  /-- `read` returns nothing. -/
  | empty
  /-- A path is enqueued. -/
  | path
  | terminate

/-- The listener leaves its loop. -/
def Accepted.stops : Accepted → Bool
  | .failed | .terminate => true
  | _ => false

/-- How a run of `main` turns out, up to some pass of `listener_loop`. -/
structure MainRun where
  succeeds : MainCall → Bool
  nthreads : ℕ
  nthreads_pos : 0 < nthreads
  clients : List Accepted

namespace MainRun

open Ladder.Rung Use

variable (run : MainRun)

/-- The loop that creates the workers. -/
def threadRungs : (remaining i : ℕ) → List (Ladder.Rung MainCall DaemonResource)
  | 0, _ => []
  | remaining + 1, i =>
      [act (borrow .args), act (borrow .tids), need (.pthreadCreate i)] ++
        threadRungs remaining (i + 1)

/-- `listener_loop` and what follows. -/
def listenerRungs : List Accepted → List (Ladder.Rung MainCall DaemonResource)
  | [] => []
  | .interrupted :: clients => act (borrow .sockFd) :: listenerRungs clients
  | .failed :: _ =>
      [act (borrow .sockFd), act (release .sockFd), act (borrow .tids), act (release .tids),
        act (release .args)]
  | .empty :: clients | .path :: clients =>
      [act (borrow .sockFd), act (acquire .cfd), act (borrow .cfd), act (release .cfd)] ++
        listenerRungs clients
  | .terminate :: _ =>
      [act (borrow .sockFd), act (acquire .cfd), act (borrow .cfd), act (borrow .cfd),
        act (release .cfd), act (release .sockFd), act (borrow .tids), act (release .tids),
        act (release .args)]

/-- `main` with `create_socket` and `listener_loop`. -/
def rungs : List (Ladder.Rung MainCall DaemonResource) :=
  [need .socket, act (borrow .sockFd), need .bind, act (borrow .sockFd), need .listen,
    attempt .callocTids, attempt .callocArgs] ++
    (threadRungs run.nthreads 0 ++ listenerRungs run.clients)

/-- What the main thread does with its resources. -/
def uses : List (Use DaemonResource) := mainLadder.uses run.succeeds run.rungs

/-- What it holds in the end. -/
def held : Finset DaemonResource :=
  if run.succeeds .socket = false ∨ run.succeeds .bind = false ∨ run.succeeds .listen = false then ∅
  else if (∀ i < run.nthreads, run.succeeds (.pthreadCreate i) = true) ∧
      run.clients.any Accepted.stops = true then ∅
  else {.args, .tids, .sockFd}

/-- An array is used although its `calloc` has failed. -/
def UsesNull : Prop :=
  run.succeeds .socket = true ∧ run.succeeds .bind = true ∧ run.succeeds .listen = true ∧
    (run.succeeds .callocTids = false ∨ run.succeeds .callocArgs = false)

variable {run} {P : Finset DaemonResource → Prop}

theorem ends_threads {succeeds : MainCall → Bool} {remaining i : ℕ}
    {rungs : List (Ladder.Rung MainCall DaemonResource)}
    (fails : (∃ j, i ≤ j ∧ j < i + remaining ∧ succeeds (.pthreadCreate j) = false) →
      P {.args, .tids, .sockFd})
    (rest : (∀ j, i ≤ j → j < i + remaining → succeeds (.pthreadCreate j) = true) →
      Ends P {.args, .tids, .sockFd} (mainLadder.uses succeeds rungs)) :
    Ends P {.args, .tids, .sockFd}
      (mainLadder.uses succeeds (threadRungs remaining i ++ rungs)) := by
  induction remaining generalizing i with
  | zero => exact rest fun j lower upper => by omega
  | succ remaining ih =>
      rw [threadRungs]
      refine .borrow (by simp) (.borrow (by simp) ?_)
      refine Ladder.ends_need_none rfl List.nodup_nil nofun (fun failed => ?_) fun created => ih ?_ ?_
      · exact fails ⟨i, le_rfl, by omega, failed⟩
      · rintro ⟨j, lower, upper, failed⟩
        exact fails ⟨j, by omega, by omega, failed⟩
      · intro all
        refine rest fun j lower upper => ?_
        rcases Nat.eq_or_lt_of_le lower with rfl | later
        · exact created
        · exact all j later (by omega)

theorem ends_listener {succeeds : MainCall → Bool} (clients : List Accepted) :
    Ends (fun left => left = if clients.any Accepted.stops = true then ∅ else {.args, .tids, .sockFd})
      {.args, .tids, .sockFd} (mainLadder.uses succeeds (listenerRungs clients)) := by
  induction clients with
  | nil => exact .nil rfl
  | cons client clients ih =>
      have served : Ends
          (fun left => left = if clients.any Accepted.stops = true then ∅
            else {.args, .tids, .sockFd}) {.args, .tids, .sockFd}
          (mainLadder.uses succeeds ([act (borrow .sockFd), act (acquire .cfd), act (borrow .cfd),
            act (release .cfd)] ++ listenerRungs clients)) :=
        .borrow (by simp) (.acquire (by simp) (.borrow (by simp) (.release (by simp) ih)))
      cases client with
      | interrupted => exact .borrow (by simp) ih
      | empty => exact served
      | path => exact served
      | failed =>
          refine .borrow (by simp) (.release (by simp) (.borrow ?_ (.release ?_ (.release ?_ (.nil rfl)))))
          · simp
          · simp
          · simp
      | terminate =>
          refine .borrow (by simp) (.acquire (by simp) (.borrow (by simp) (.borrow (by simp) ?_)))
          refine .release (by simp) (.release ?_ (.borrow ?_ (.release ?_ (.release ?_ (.nil rfl)))))
          · simp
          · simp
          · simp
          · simp

/-- The main thread uses and releases only what it holds; it keeps the socket and its two arrays only
while it listens, or where it gives up on a thread that cannot be created. -/
theorem ends_uses (noNull : ¬ run.UsesNull) : Ends (fun left => left = run.held) ∅ run.uses := by
  rw [uses, MainRun.rungs]
  refine Ladder.ends_need rfl (Finset.notMem_empty _) List.nodup_nil nofun
    (fun failed => ?_) fun socket => ?_
  · rw [held, if_pos (.inl failed)]
    rfl
  refine .borrow (by simp) (Ladder.ends_need_none rfl (List.nodup_singleton _) (by simp [mainLadder])
    (fun failed => ?_) fun bind => ?_)
  · rw [held, if_pos (.inr (.inl failed))]
    rfl
  refine .borrow (by simp) (Ladder.ends_need_none rfl (List.nodup_singleton _) (by simp [mainLadder])
    (fun failed => ?_) fun listen => ?_)
  · rw [held, if_pos (.inr (.inr failed))]
    rfl
  have held_eq : run.held =
      if (∀ i < run.nthreads, run.succeeds (.pthreadCreate i) = true) ∧
        run.clients.any Accepted.stops = true then ∅ else {.args, .tids, .sockFd} := by
    rw [held, if_neg (by simp [socket, bind, listen])]
  rw [held_eq]
  refine Ladder.ends_attempt rfl (by simp) (fun failed => ?_) fun _ => ?_
  · exact absurd ⟨socket, bind, listen, .inl failed⟩ noNull
  refine Ladder.ends_attempt rfl (by simp) (fun failed => ?_) fun _ => ?_
  · exact absurd ⟨socket, bind, listen, .inr failed⟩ noNull
  refine ends_threads ?_ fun created => ?_
  · rintro ⟨j, -, upper, failed⟩
    rw [if_neg]
    rintro ⟨created, -⟩
    cases failed.symm.trans (created j (by omega))
  · refine (ends_listener run.clients).mono fun left left_eq => ?_
    rw [left_eq]
    have all : ∀ i < run.nthreads, run.succeeds (.pthreadCreate i) = true :=
      fun i below => created i (Nat.zero_le i) (by omega)
    simp only [and_iff_right all]

/-- Otherwise an array that is not there is used. -/
theorem replay_uses_of_usesNull (null : run.UsesNull) : replay ∅ run.uses = none := by
  obtain ⟨socket, bind, listen, missing⟩ := null
  obtain ⟨later, nthreads_eq⟩ := Nat.exists_eq_succ_of_ne_zero run.nthreads_pos.ne'
  have past {call : MainCall} (succeeded : run.succeeds call = true)
      (gives : mainLadder.gives call = none) (rungs : List (Ladder.Rung MainCall DaemonResource)) :
      mainLadder.uses run.succeeds (need call :: rungs) = mainLadder.uses run.succeeds rungs := by
    rw [Ladder.uses, if_pos succeeded, Ladder.given, gives]
    rfl
  have acted (use : Use DaemonResource) (rungs : List (Ladder.Rung MainCall DaemonResource)) :
      mainLadder.uses run.succeeds (act use :: rungs) = use :: mainLadder.uses run.succeeds rungs :=
    rfl
  simp only [uses, MainRun.rungs, List.cons_append, List.nil_append, nthreads_eq, threadRungs]
  rw [Ladder.uses, if_pos socket, acted, past bind rfl, acted, past listen rfl]
  change replay ∅ (acquire DaemonResource.sockFd :: borrow DaemonResource.sockFd ::
    borrow DaemonResource.sockFd :: _) = none
  rw [replay_acquire (Finset.notMem_empty _), replay_borrow (by simp), replay_borrow (by simp),
    Ladder.uses]
  split
  · rename_i tids
    have args := missing.resolve_left (by simp [tids])
    rw [Ladder.uses, if_neg (by simp [args]), acted]
    change replay _ (acquire DaemonResource.tids :: _) = none
    rw [replay_acquire (by simp)]
    exact replay_borrow_eq_none (by simp)
  · rw [Ladder.uses]
    split
    · change replay _ (acquire DaemonResource.args :: borrow DaemonResource.args :: _) = none
      rw [replay_acquire (by simp), replay_borrow (by simp)]
      exact replay_borrow_eq_none (by simp)
    · exact replay_borrow_eq_none (by simp)

end MainRun

/-! ## All threads -/

/-- A thread of the daemon; a worker is looked at for each path it dequeues. -/
abbrev ThreadJob (n : ℕ) := Option (Fin n × ℕ)

/-- How the threads run: the main thread, and what each worker does for each path, if it calls
`execute`. -/
structure DaemonRun (n : ℕ) where
  main : MainRun
  jobs : Fin n → ℕ → Option ExecuteRun

namespace DaemonRun

variable {n : ℕ} (run : DaemonRun n)

/-- What a thread does. -/
def uses : ThreadJob n → List (Use DaemonResource)
  | none => run.main.uses
  | some (worker, job) => (run.jobs worker job).elim [] ExecuteRun.uses

/-- What it holds in the end. -/
def held : ThreadJob n → Finset DaemonResource
  | none => run.main.held
  | some (worker, job) => (run.jobs worker job).elim ∅ ExecuteRun.leaked

/-- A thread uses an allocation that has failed. -/
def UsesNull : ThreadJob n → Prop
  | none => run.main.UsesNull
  | some (worker, job) => ∃ execution ∈ run.jobs worker job, execution.UsesNull

/-- What the threads have done at some moment of an interleaving. -/
def Interleaved (events : List (ThreadJob n × Use DaemonResource)) : Prop :=
  ∀ thread, Use.doneBy thread events <+: run.uses thread

variable {run} {thread : ThreadJob n}

theorem ends_uses (noNull : ¬ run.UsesNull thread) :
    Use.Ends (fun left => left = run.held thread) ∅ (run.uses thread) := by
  cases thread with
  | none => exact MainRun.ends_uses noNull
  | some pair =>
      obtain ⟨worker, job⟩ := pair
      rw [uses, held]
      cases job_eq : run.jobs worker job with
      | none => exact .nil rfl
      | some execution =>
          exact ExecuteRun.ends_uses fun null => noNull ⟨execution, job_eq, null⟩

theorem replay_uses_of_usesNull (null : run.UsesNull thread) :
    Use.replay ∅ (run.uses thread) = none := by
  cases thread with
  | none => exact MainRun.replay_uses_of_usesNull null
  | some pair =>
      obtain ⟨worker, job⟩ := pair
      obtain ⟨execution, job_eq, null⟩ := null
      rw [uses, Option.mem_def.mp job_eq]
      exact ExecuteRun.replay_uses_of_usesNull null

theorem heldBy_empty (thread : ThreadJob n) :
    Use.heldBy thread (∅ : Finset (ThreadJob n × DaemonResource)) = ∅ := by
  ext resource
  simp [Use.mem_heldBy]

/-- What all threads hold at a moment is what each holds by itself. -/
theorem replay_iff {events : List (ThreadJob n × Use DaemonResource)}
    {left : ThreadJob n → Finset DaemonResource} :
    (∀ thread, Use.replay ∅ (Use.doneBy thread events) = some (left thread)) ↔
      ∃ after, Use.replay ∅ (Use.together events) = some after ∧
        ∀ thread, Use.heldBy thread after = left thread := by
  rw [← Use.replay_together]
  simp only [heldBy_empty]

/-- One thread runs alone. -/
theorem interleaved_alone (thread : ThreadJob n) :
    run.Interleaved ((run.uses thread).map (Prod.mk thread)) ∧
      Use.doneBy thread ((run.uses thread).map (Prod.mk thread)) = run.uses thread := by
  have own : Use.doneBy thread ((run.uses thread).map (Prod.mk thread)) = run.uses thread := by
    rw [Use.doneBy, List.filterMap_map]
    simp
  refine ⟨fun other => ?_, own⟩
  by_cases same : other = thread
  · subst same
    rw [own]
  · have nothing : Use.doneBy other ((run.uses thread).map (Prod.mk thread)) = [] := by
      rw [Use.doneBy, List.filterMap_map]
      simp [Ne.symm same]
    rw [nothing]
    exact List.nil_prefix

end DaemonRun

/-- The threads of the daemon, any number of workers with any number of jobs each, use and release only
what they hold and acquire nothing twice, in every interleaving, up to every moment and whatever calls
fail, exactly if no thread uses an allocation that has failed.  Then a thread that is done holds what is
known: the main thread nothing once it has served its last client, a worker nothing but the metadata of
its jobs and the rebuilt types. -/
theorem daemon_releases {n : ℕ} (run : DaemonRun n) :
    ((∀ events, run.Interleaved events → ∃ held, Use.replay ∅ (Use.together events) = some held) ↔
        ∀ thread, ¬ run.UsesNull thread) ∧
      ((∀ thread, ¬ run.UsesNull thread) → ∀ events, run.Interleaved events →
        ∀ held, Use.replay ∅ (Use.together events) = some held →
          ∀ thread, Use.doneBy thread events = run.uses thread →
            ∀ resource, (thread, resource) ∈ held ↔ resource ∈ run.held thread) ∧
        ∀ worker job, run.held (some (worker, job)) ⊆ {.dtype, .etype, .dtBuf, .etBuf} := by
  refine ⟨⟨?_, ?_⟩, ?_, ?_⟩
  · intro inOrder thread null
    obtain ⟨interleaved, own⟩ := DaemonRun.interleaved_alone thread
    obtain ⟨held, replayed⟩ := inOrder _ interleaved
    have alone := DaemonRun.replay_iff.mpr ⟨held, replayed, fun _ => rfl⟩ thread
    rw [own, DaemonRun.replay_uses_of_usesNull null] at alone
    cases alone
  · intro noNull events interleaved
    have each (thread : ThreadJob n) : ∃ left,
        Use.replay ∅ (Use.doneBy thread events) = some left := by
      obtain ⟨left, replayed, -⟩ := DaemonRun.ends_uses (noNull thread)
      exact Use.exists_replay_of_prefix (interleaved thread) replayed
    choose left replays using each
    obtain ⟨held, replayed, -⟩ := DaemonRun.replay_iff.mp replays
    exact ⟨held, replayed⟩
  · intro noNull events _ held replayed thread finished resource
    obtain ⟨final, replayed_alone, rfl⟩ := DaemonRun.ends_uses (noNull thread)
    have mine := DaemonRun.replay_iff.mpr ⟨held, replayed, fun _ => rfl⟩ thread
    rw [finished, replayed_alone] at mine
    rw [← Use.mem_heldBy, ← Option.some.inj mine]
  · intro worker job
    rw [DaemonRun.held]
    cases run.jobs worker job with
    | none => exact Finset.empty_subset _
    | some execution => exact ExecuteRun.leaked_subset execution

end BBView
