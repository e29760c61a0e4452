import BBView.Contributions
import BBView.Outcomes

/-!
# Reading a checkpoint back

After the acknowledgement a program opens a destination, asks for atomic mode so that its views are not
buffered, sets a view of its own and reads.  The readers need not be the ranks that wrote, and their
views need not be those that the ranks wrote through.
-/

namespace BBView

namespace Session

variable {session : Session} {dest : ByteFile}

/-- A read finds bytes that are there one behind the other. -/
theorem fetch_eq (file_eq : session.file = some dest) {position len : ℕ} {expected : ℕ → UInt8}
    (placed : ∀ shift < len,
      session.handle.fview.byteAt (position + shift) < dest.size ∧
        dest.get (session.handle.fview.byteAt (position + shift)) = expected shift) :
    session.fetch position len = (List.range len).map expected := by
  have inside : ∀ offset ∈ (List.range len).map fun shift =>
      session.handle.fview.byteAt (position + shift), decide (offset < dest.size) = true := by
    intro offset member
    obtain ⟨shift, below, rfl⟩ := List.mem_map.mp member
    exact decide_eq_true (placed shift (List.mem_range.mp below)).1
  rw [fetch, file_eq]
  dsimp only
  rw [List.takeWhile_eq_self_iff.mpr inside, List.map_map]
  exact List.map_congr_left fun shift below => (placed shift (List.mem_range.mp below)).2

/-- A handle that has just been opened falls back when atomic mode is asked for, granted or not. -/
theorem setAtomicity_opened {env : AtomicityEnv} (agreed : env.broadcast = true)
    (filename : Bytes) (rank : ℕ) (sequential : Bool) (dir : BufferDir) (dest : ByteFile) :
    ∃ atomicity, (setAtomicity env true (.initial filename rank sequential dir dest)).2 =
      { Session.initial filename rank sequential dir dest with
        handle := { Handle.opened filename rank sequential with atomicity, state := .fallback } } := by
  cases checked : env.check with
  | true => exact ⟨true, by simp [setAtomicity, initial, Handle.opened, agreed, checked]⟩
  | false => exact ⟨false, by simp [setAtomicity, initial, Handle.opened, agreed, checked]⟩

/-- In the fallback a view is a view of the destination. -/
theorem setView_fallback {config : Config} {codec : Codec} {env : SetViewEnv} {args : ViewArgs}
    {after : Session} (fallback : session.handle.state = .fallback)
    (set_eq : setView config codec env args session = (.success, after)) :
    ∃ position, after =
      { session with handle := { session.handle with fview := args.fileView, position } } := by
  have outcome := setView_outcome config codec env args session
  rw [set_eq] at outcome
  generalize result_eq : ((Ret.success, after) : Ret × Session) = result at outcome
  cases outcome with
  | refused _ failed | unflushed _ _ failed | unsaved _ _ _ _ failed =>
      exact absurd (Prod.mk.inj result_eq).1.symm failed
  | direct _ _ _ =>
      have success : env.view.ret = .success := (congrArg Prod.fst result_eq).symm
      refine ⟨0, (congrArg Prod.snd result_eq).trans ?_⟩
      rw [ompioSetView, if_pos success, ViewArgs.fileView]
  | returned _ active => cases fallback.symm.trans active
  | unopened _ proper | installed _ proper => exact absurd fallback proper

end Session

namespace Plant

variable {n : ℕ} {config : Config} {codec : Codec} {dests₀ : Destinations} {plant after : Plant n}
  {ranks : ℕ → Contribution config codec}

end Plant

end BBView
