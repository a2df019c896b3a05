import Mathlib.Data.List.Induction
import Chip8.Proofs.Surface
import Chip8.Proofs.Work

/-!
# The keys of a surface and their history

A keypad keeps the held keys in one list and the latest press in one latch.  What a user of the keys
finds can be told without these two from what was done with the keys before, however often and in
whatever order: which keys are held (`IsDown`) and since when (`HeldSince`), and which press nobody
has taken yet (`Kept`).  `Keypad.Records` says that a keypad agrees with such a history.  Each further
use keeps it (`Records.use`), so that the keypad of a new surface agrees with any history
(`records_afterUses`), and `AnswersByHistory` is what this means for the answers.
-/

namespace Chip8

/-- A use of the keys of a surface, by the number of the key. -/
inductive KeyUse where
  | press (code : Int)
  | release (code : Int)
  | keyHeld (code : Int)
  | poll
  | clearPress
deriving DecidableEq, Repr

namespace KeyUse

/-- The request that it is. -/
def request : KeyUse → Surface.Request
  | press code => .press code
  | release code => .release code
  | keyHeld code => .keyHeld code
  | poll => .poll
  | clearPress => .clearPress

/-- The use, step by step. -/
def work : KeyUse → Work Fault Surface Surface.Reply
  | press code =>
    match key? code with
    | none => throw (.noSuchKey code)
    | some key => do
      if !(← get).keypad.held.contains key then
        modify fun s => { s with keypad := { s.keypad with held := s.keypad.held ++ [key] } }
      modify fun s => { s with keypad := { s.keypad with latch := some key } }
      modify Surface.raise
      return .done
  | release code =>
    match key? code with
    | none => return .done
    | some key => do
      modify fun s => { s with keypad := { s.keypad with held := s.keypad.held.erase key } }
      return .done
  | keyHeld code => do return .truth ((← get).keyHeld code)
  | poll => do
    match (← get).keypad.latch with
    | some key =>
      modify Surface.clearPress
      return .key (some (key.val : Int))
    | none => return .key ((← get).keypad.held.head?.map fun key => (key.val : Int))
  | clearPress => do
    modify Surface.clearPress
    return .done

end KeyUse

/-- The keypad after a use.  A press of a key that does not exist changes nothing. -/
def Keypad.use (k : Keypad) (u : KeyUse) : Keypad := u.request.onKeypad k

namespace Surface

/-- The use of the keys that a request is, if it is one. -/
def Request.keyUse? : Request → Option KeyUse
  | .press code => some (.press code)
  | .release code => some (.release code)
  | .keyHeld code => some (.keyHeld code)
  | .poll => some .poll
  | .clearPress => some .clearPress
  | _ => none

/-- The surface after uses of its keys in order, of which each finds what the one before has left. -/
def afterUses (s : Surface) (uses : List KeyUse) : Surface :=
  uses.foldl (fun s u => u.work.left s) s

end Surface

/-! ## What a history says -/

namespace KeyUse

/-- The use came after the uses `earlier`, and nothing since then ends what it began. -/
def Since (past earlier : List KeyUse) (u : KeyUse) (Ends : KeyUse → Prop) : Prop :=
  ∃ later, past = earlier ++ u :: later ∧ ∀ v ∈ later, ¬Ends v

/-- Of the presses and releases of the key the latest is a press. -/
def IsDown (past : List KeyUse) (key : Key) : Prop :=
  ∃ earlier, Since past earlier (press key.val) fun v => v = press key.val ∨ v = release key.val

/-- The key is held since the press that came after the uses `earlier`: before, it was not, and it was
not released since. -/
def HeldSince (past : List KeyUse) (key : Key) (earlier : List KeyUse) : Prop :=
  ¬IsDown earlier key ∧ Since past earlier (press key.val) fun v => v = release key.val

/-- The one key is held since before the other is. -/
def HeldLonger (past : List KeyUse) (key other : Key) : Prop :=
  ∃ earlier earlier', HeldSince past key earlier ∧ HeldSince past other earlier' ∧
    earlier.length < earlier'.length

/-- The key is held, and longer than all others that are. -/
def IsLongestHeld (past : List KeyUse) (key : Key) : Prop :=
  IsDown past key ∧ ∀ other, other ≠ key → IsDown past other → HeldLonger past key other

/-- The latest press of a key that exists was this one, and it was made since the presses were last
forgotten and since the last poll that took a press, which is one before which a press was kept. -/
def Kept (past : List KeyUse) (key : Key) : Prop :=
  ∃ (earlier later : List KeyUse) (_ : past = earlier ++ press key.val :: later),
    (∀ other : Key, press other.val ∉ later) ∧ clearPress ∉ later ∧
      ∀ (before after : List KeyUse) (_ : later = before ++ poll :: after) (other : Key),
        ¬Kept (earlier ++ press key.val :: before) other
termination_by past.length

/-- What a poll finds: the press that is kept, or else the key held longest, if there is one. -/
def Finds (past : List KeyUse) : Option Key → Prop
  | some key => Kept past key ∨ (∀ other, ¬Kept past other) ∧ IsLongestHeld past key
  | none => (∀ other, ¬Kept past other) ∧ ∀ other, ¬IsDown past other

variable {past earlier earlier' : List KeyUse} {u v : KeyUse} {Ends : KeyUse → Prop}
  {key other : Key}

theorem press_inj : press key.val = press other.val ↔ key = other := by
  rw [press.injEq, Int.ofNat_inj, Fin.val_inj]

theorem release_inj : release key.val = release other.val ↔ key = other := by
  rw [release.injEq, Int.ofNat_inj, Fin.val_inj]

theorem since_nil : ¬Since [] earlier u Ends := by
  rintro ⟨later, hSplit, -⟩
  simp at hSplit

/-- Something that has just come, or that came before and is not ended now. -/
theorem since_concat :
    Since (past ++ [v]) earlier u Ends ↔
      past = earlier ∧ v = u ∨ ¬Ends v ∧ Since past earlier u Ends := by
  constructor
  · rintro ⟨later, hSplit, hNone⟩
    -- What has come last is the use itself, or else the last of those that came since.
    rcases List.eq_nil_or_concat later with rfl | ⟨front, last, rfl⟩
    · obtain ⟨hPast, hLast⟩ := List.append_inj' hSplit rfl
      exact .inl ⟨hPast, List.singleton_inj.1 hLast⟩
    · rw [List.concat_eq_append] at hSplit hNone
      rw [← List.cons_append, ← List.append_assoc] at hSplit
      obtain ⟨hPast, hLast⟩ := List.append_inj' hSplit rfl
      cases List.singleton_inj.1 hLast
      obtain ⟨hFront, hEnd⟩ := List.forall_mem_append.1 hNone
      exact .inr ⟨hEnd v (List.mem_singleton_self v), front, hPast, hFront⟩
  · rintro (⟨rfl, rfl⟩ | ⟨hEnd, later, rfl, hNone⟩)
    · exact ⟨[], rfl, List.forall_mem_nil _⟩
    · exact ⟨later ++ [v], by simp, List.forall_mem_append.2 ⟨hNone, by simpa using hEnd⟩⟩

theorem length_lt_of_since (h : Since past earlier u Ends) : earlier.length < past.length := by
  obtain ⟨later, rfl, -⟩ := h
  simp

theorem not_isDown_nil (key : Key) : ¬IsDown [] key := by
  rintro ⟨earlier, hSince⟩
  exact since_nil hSince

theorem isDown_concat :
    IsDown (past ++ [v]) key ↔ v = press key.val ∨ v ≠ release key.val ∧ IsDown past key := by
  simp only [IsDown, since_concat]
  constructor
  · rintro ⟨earlier, ⟨-, hPress⟩ | ⟨hEnds, hSince⟩⟩
    · exact .inl hPress
    · exact .inr ⟨fun hRelease => hEnds (.inr hRelease), earlier, hSince⟩
  · rintro (hPress | ⟨hRelease, earlier, hSince⟩)
    · exact ⟨past, .inl ⟨rfl, hPress⟩⟩
    · by_cases hPress : v = press key.val
      · exact ⟨past, .inl ⟨rfl, hPress⟩⟩
      · exact ⟨earlier, .inr ⟨fun hEnds => hEnds.elim hPress hRelease, hSince⟩⟩

theorem heldSince_concat :
    HeldSince (past ++ [v]) key earlier ↔
      (past = earlier ∧ v = press key.val ∧ ¬IsDown past key) ∨
        v ≠ release key.val ∧ HeldSince past key earlier := by
  rw [HeldSince, since_concat]
  constructor
  · rintro ⟨hBefore, ⟨rfl, hPress⟩ | ⟨hRelease, hSince⟩⟩
    · exact .inl ⟨rfl, hPress, hBefore⟩
    · exact .inr ⟨hRelease, hBefore, hSince⟩
  · rintro (⟨rfl, hPress, hBefore⟩ | ⟨hRelease, hBefore, hSince⟩)
    · exact ⟨hBefore, .inl ⟨rfl, hPress⟩⟩
    · exact ⟨hBefore, .inr ⟨hRelease, hSince⟩⟩

theorem HeldSince.isDown (h : HeldSince past key earlier) : IsDown past key := by
  induction past using List.reverseRecOn with
  | nil => exact absurd h.2 since_nil
  | append_singleton past v ih =>
      rcases heldSince_concat.1 h with ⟨-, hPress, -⟩ | ⟨hRelease, hSince⟩
      · exact isDown_concat.2 (.inl hPress)
      · exact isDown_concat.2 (.inr ⟨hRelease, ih hSince⟩)

/-- A key that is held is held since one of its presses. -/
theorem IsDown.exists_heldSince (h : IsDown past key) : ∃ earlier, HeldSince past key earlier := by
  induction past using List.reverseRecOn with
  | nil => exact absurd h (not_isDown_nil key)
  | append_singleton past v ih =>
      -- If the key was held before, its hold goes on, and else it begins now.
      by_cases hBefore : IsDown past key
      · obtain ⟨earlier, hSince⟩ := ih hBefore
        have hRelease : v ≠ release key.val := by
          rcases isDown_concat.1 h with rfl | ⟨hRelease, -⟩
          · exact KeyUse.noConfusion
          · exact hRelease
        exact ⟨earlier, heldSince_concat.2 (.inr ⟨hRelease, hSince⟩)⟩
      · rcases isDown_concat.1 h with hPress | ⟨-, hDown⟩
        · exact ⟨past, heldSince_concat.2 (.inl ⟨rfl, hPress, hBefore⟩)⟩
        · exact absurd hDown hBefore

theorem HeldSince.unique (h : HeldSince past key earlier) (h' : HeldSince past key earlier') :
    earlier = earlier' := by
  induction past using List.reverseRecOn with
  | nil => exact absurd h.2 since_nil
  | append_singleton past v ih =>
      rcases heldSince_concat.1 h with ⟨rfl, -, hBefore⟩ | ⟨-, hSince⟩
      · rcases heldSince_concat.1 h' with ⟨rfl, -, -⟩ | ⟨-, hSince'⟩
        · rfl
        · exact absurd hSince'.isDown hBefore
      · rcases heldSince_concat.1 h' with ⟨rfl, -, hBefore⟩ | ⟨-, hSince'⟩
        · exact absurd hSince.isDown hBefore
        · exact ih hSince hSince'

theorem HeldLonger.asymm (h : HeldLonger past key other) : ¬HeldLonger past other key := by
  rintro ⟨other₁, key₁, hOther₁, hKey₁, hLess₁⟩
  obtain ⟨key₂, other₂, hKey₂, hOther₂, hLess₂⟩ := h
  cases hKey₁.unique hKey₂
  cases hOther₁.unique hOther₂
  omega

/-- No other key is held longer than all others. -/
theorem IsLongestHeld.eq_iff (h : IsLongestHeld past key) : IsLongestHeld past other ↔ key = other := by
  refine ⟨fun hOther => ?_, fun hSame => hSame ▸ h⟩
  by_contra hNe
  exact (h.2 other (Ne.symm hNe) hOther.1).asymm (hOther.2 key hNe h.1)

theorem HeldLonger.concat (h : HeldLonger past key other) (hKey : v ≠ release key.val)
    (hOther : v ≠ release other.val) : HeldLonger (past ++ [v]) key other := by
  obtain ⟨earlier, earlier', hSince, hSince', hLess⟩ := h
  exact ⟨earlier, earlier', heldSince_concat.2 (.inr ⟨hKey, hSince⟩),
    heldSince_concat.2 (.inr ⟨hOther, hSince'⟩), hLess⟩

/-- A key that is pressed now is held for less time than all that were held before. -/
theorem heldLonger_concat_press (hDown : IsDown past key) (hOther : ¬IsDown past other) :
    HeldLonger (past ++ [press other.val]) key other := by
  obtain ⟨earlier, hSince⟩ := hDown.exists_heldSince
  exact ⟨earlier, past, heldSince_concat.2 (.inr ⟨KeyUse.noConfusion, hSince⟩),
    heldSince_concat.2 (.inl ⟨rfl, rfl, hOther⟩), length_lt_of_since hSince.2⟩

/-- What puts an end to a press that is kept. -/
def EndsKept (v : KeyUse) : Prop := v = poll ∨ v = clearPress ∨ ∃ other : Key, v = press other.val

/-- The first poll after a press takes it, so that none can have come since. -/
theorem kept_iff : Kept past key ↔ ∃ earlier, Since past earlier (press key.val) EndsKept := by
  rw [Kept]
  constructor
  · rintro ⟨earlier, later, hPast, hPress, hClear, hPoll⟩
    refine ⟨earlier, later, hPast, fun v hv => ?_⟩
    rintro (rfl | rfl | ⟨other, rfl⟩)
    · -- Before the first of the polls since then the press was kept, so that this poll took it.
      obtain ⟨before, after, rfl, hFirst⟩ := List.eq_append_cons_of_mem hv
      refine hPoll before after rfl key ?_
      rw [Kept]
      refine ⟨earlier, before, rfl, fun other hIn => hPress other (List.mem_append_left _ hIn),
        fun hIn => hClear (List.mem_append_left _ hIn), fun before' after' hSplit _ _ => hFirst ?_⟩
      rw [hSplit]
      exact List.mem_append_right _ List.mem_cons_self
    · exact hClear hv
    · exact hPress other hv
  · rintro ⟨earlier, later, hPast, hNone⟩
    refine ⟨earlier, later, hPast, fun other hIn => hNone _ hIn (.inr (.inr ⟨other, rfl⟩)),
      fun hIn => hNone _ hIn (.inr (.inl rfl)), fun before after hSplit _ _ => ?_⟩
    exact hNone poll (hSplit ▸ List.mem_append_right _ List.mem_cons_self) (.inl rfl)

theorem not_kept_nil (key : Key) : ¬Kept [] key := by
  rw [kept_iff]
  rintro ⟨earlier, hSince⟩
  exact since_nil hSince

theorem kept_concat :
    Kept (past ++ [v]) key ↔ v = press key.val ∨ ¬v.EndsKept ∧ Kept past key := by
  simp only [kept_iff, since_concat]
  constructor
  · rintro ⟨earlier, ⟨-, hPress⟩ | ⟨hEnds, hSince⟩⟩
    · exact .inl hPress
    · exact .inr ⟨hEnds, earlier, hSince⟩
  · rintro (hPress | ⟨hEnds, earlier, hSince⟩)
    · exact ⟨past, .inl ⟨rfl, hPress⟩⟩
    · exact ⟨earlier, .inr ⟨hEnds, hSince⟩⟩

/-! ## One use -/

/-- The steps of a use are what the request does, and one that is refused changes nothing. -/
theorem on_work (u : KeyUse) (s : Surface) :
    u.work.on s = match s.perform u.request with
      | .ok (reply, next) => (.ok reply, next)
      | .error f => (.error f, s) := by
  cases u with
  | press code =>
      simp only [work, request, Surface.perform, Surface.press]
      cases key? code with
      | none => rfl
      | some key =>
          by_cases hHeld : key ∈ s.keypad.held
          · simp only [Work.on_bind, Work.on_get, List.contains_iff_mem.2 hHeld, Keypad.press,
              if_pos hHeld]
            rfl
          · have hFree : s.keypad.held.contains key = false := by simpa using hHeld
            simp only [Work.on_bind, Work.on_get, hFree, Keypad.press, if_neg hHeld]
            rfl
  | release code =>
      simp only [work, request, Surface.perform, Surface.release]
      cases key? code with
      | none => rfl
      | some key => rfl
  | keyHeld code => rfl
  | poll =>
      simp only [work, request, Surface.perform, Surface.poll, Keypad.poll, Work.on_bind, Work.on_get]
      cases s.keypad.latch with
      | none => rfl
      | some key => rfl
  | clearPress => rfl

theorem left_work (u : KeyUse) (s : Surface) : u.work.left s = s.served u.request := by
  rw [Work.left, on_work, Surface.served]
  cases s.perform u.request with
  | ok answer => rfl
  | error f => rfl

theorem keypad_left_work (u : KeyUse) (s : Surface) : (u.work.left s).keypad = s.keypad.use u := by
  rw [left_work, Surface.served_eq]
  rfl

end KeyUse

/-! ## Histories -/

namespace Keypad

open KeyUse

@[simp] theorem use_press (k : Keypad) (key : Key) : k.use (.press key.val) = k.press key := by
  show (key? key.val).elim k k.press = k.press key
  rw [Surface.key?_val, Option.elim_some]

@[simp] theorem use_release (k : Keypad) (key : Key) : k.use (.release key.val) = k.release key := by
  show (key? key.val).elim k k.release = k.release key
  rw [Surface.key?_val, Option.elim_some]

theorem ne_val_of_key?_eq_none {code : Int} (h : key? code = none) (key : Key) : code ≠ key.val := by
  rintro rfl
  cases h.symm.trans (Surface.key?_val key)

/-- What a use does.  A poll leaves no press behind, whether it found one or not. -/
theorem use_cases (k : Keypad) (u : KeyUse) :
    (∃ key : Key, u = .press key.val ∧ k.use u = k.press key) ∨
      (∃ key : Key, u = .release key.val ∧ k.use u = k.release key) ∨
      (u = .poll ∨ u = .clearPress) ∧ k.use u = k.clearLatch ∨
      (∀ key : Key, u ≠ .press key.val ∧ u ≠ .release key.val) ∧ ¬u.EndsKept ∧ k.use u = k := by
  cases u with
  | press code =>
      cases hKey : key? code with
      | some key =>
          cases Surface.val_of_key? hKey
          exact .inl ⟨key, rfl, use_press k key⟩
      | none =>
          have hNe := ne_val_of_key?_eq_none hKey
          refine .inr (.inr (.inr ⟨fun key => ⟨?_, KeyUse.noConfusion⟩, ?_, ?_⟩))
          · exact fun hPress => hNe key (KeyUse.press.inj hPress)
          · rintro (hPoll | hClear | ⟨key, hPress⟩)
            · cases hPoll
            · cases hClear
            · exact hNe key (KeyUse.press.inj hPress)
          · show (key? code).elim k k.press = k
            rw [hKey, Option.elim_none]
  | release code =>
      cases hKey : key? code with
      | some key =>
          cases Surface.val_of_key? hKey
          exact .inr (.inl ⟨key, rfl, use_release k key⟩)
      | none =>
          have hNe := ne_val_of_key?_eq_none hKey
          refine .inr (.inr (.inr ⟨fun key => ⟨KeyUse.noConfusion, ?_⟩, by simp [EndsKept], ?_⟩))
          · exact fun hRelease => hNe key (KeyUse.release.inj hRelease)
          · show (key? code).elim k k.release = k
            rw [hKey, Option.elim_none]
  | keyHeld code => exact .inr (.inr (.inr ⟨by simp, by simp [EndsKept], rfl⟩))
  | poll =>
      refine .inr (.inr (.inl ⟨.inl rfl, ?_⟩))
      show k.poll.2 = k.clearLatch
      simp only [poll, clearLatch]
      cases hLatch : k.latch with
      | some key => rfl
      | none => simp only [← hLatch]
  | clearPress => exact .inr (.inr (.inl ⟨.inr rfl, rfl⟩))

/-- The keypad is what a history has made of it. -/
structure Records (k : Keypad) (past : List KeyUse) : Prop where
  mem_held_iff (key : Key) : key ∈ k.held ↔ IsDown past key
  nodup_held : k.held.Nodup
  pairwise_held : k.held.Pairwise (HeldLonger past)
  latch_eq_iff (key : Key) : k.latch = some key ↔ Kept past key

namespace Records

variable {k l : Keypad} {past : List KeyUse} {u : KeyUse} {key : Key}

theorem new : ({} : Keypad).Records [] where
  mem_held_iff key := by simp [not_isDown_nil]
  nodup_held := List.nodup_nil
  pairwise_held := .nil
  latch_eq_iff key := by simp [not_kept_nil]

theorem press (h : k.Records past) (key : Key) :
    (k.press key).Records (past ++ [.press key.val]) := by
  have hMem : ∀ other, other ∈ (k.press key).held ↔ other = key ∨ other ∈ k.held := by
    intro other
    by_cases hHeld : key ∈ k.held
    · simp only [Keypad.press, if_pos hHeld]
      exact ⟨.inr, fun hOther => hOther.elim (fun hSame => hSame ▸ hHeld) id⟩
    · simp [Keypad.press, hHeld, or_comm]
  have hLater : k.held.Pairwise (HeldLonger (past ++ [.press key.val])) :=
    h.pairwise_held.imp fun hLonger => hLonger.concat KeyUse.noConfusion KeyUse.noConfusion
  constructor
  case mem_held_iff =>
    intro other
    rw [hMem, isDown_concat, h.mem_held_iff, press_inj, eq_comm]
    simp only [ne_eq, reduceCtorEq, not_false_eq_true, true_and]
  case nodup_held => exact Surface.nodup_held_press h.nodup_held key
  case pairwise_held =>
    by_cases hHeld : key ∈ k.held
    · simpa only [Keypad.press, if_pos hHeld] using hLater
    · -- The key comes last in the list, and it is held for the shortest time.
      have hDown := mt (h.mem_held_iff key).2 hHeld
      simp only [Keypad.press, if_neg hHeld]
      refine List.pairwise_append.2 ⟨hLater, List.pairwise_singleton _ _, ?_⟩
      intro other hOther last hLast
      cases List.mem_singleton.1 hLast
      exact heldLonger_concat_press ((h.mem_held_iff other).1 hOther) hDown
  case latch_eq_iff =>
    intro other
    have hEnds : EndsKept (.press key.val) := .inr (.inr ⟨key, rfl⟩)
    rw [kept_concat, press_inj]
    simp [Keypad.press, hEnds]

theorem release (h : k.Records past) (key : Key) :
    (k.release key).Records (past ++ [.release key.val]) := by
  have hMem : ∀ other, other ∈ k.held.erase key ↔ other ≠ key ∧ other ∈ k.held :=
    fun other => h.nodup_held.mem_erase_iff
  have hOther : ∀ other, other ≠ key → KeyUse.release key.val ≠ .release other.val := by
    intro other hNe hSame
    exact hNe (release_inj.1 hSame).symm
  constructor
  case mem_held_iff =>
    intro other
    show other ∈ k.held.erase key ↔ _
    rw [hMem, isDown_concat, h.mem_held_iff, ne_eq, ne_eq, release_inj, eq_comm]
    simp only [reduceCtorEq, false_or]
  case nodup_held => exact h.nodup_held.erase key
  case pairwise_held =>
    -- The keys that stay are held as long as before, and in the same order.
    refine (h.pairwise_held.sublist List.erase_sublist).imp_of_mem fun hFirst hSecond hLonger => ?_
    exact hLonger.concat (hOther _ ((hMem _).1 hFirst).1) (hOther _ ((hMem _).1 hSecond).1)
  case latch_eq_iff =>
    intro other
    rw [kept_concat, ← h.latch_eq_iff]
    simp [Keypad.release, EndsKept]

/-- A use by which no key is pressed or released leaves the held keys, and the history says so too. -/
theorem of_held_eq (h : k.Records past) (hHeld : l.held = k.held)
    (hQuiet : ∀ key : Key, u ≠ .press key.val ∧ u ≠ .release key.val)
    (hLatch : ∀ key, l.latch = some key ↔ ¬u.EndsKept ∧ Kept past key) :
    l.Records (past ++ [u]) where
  mem_held_iff key := by
    rw [hHeld, h.mem_held_iff, isDown_concat]
    simp [hQuiet key]
  nodup_held := hHeld ▸ h.nodup_held
  pairwise_held := by
    rw [hHeld]
    exact h.pairwise_held.imp fun hLonger => hLonger.concat (hQuiet _).2 (hQuiet _).2
  latch_eq_iff key := by
    rw [hLatch, kept_concat]
    simp [hQuiet key]

/-- One more use. -/
theorem use (h : k.Records past) (u : KeyUse) : (k.use u).Records (past ++ [u]) := by
  rcases use_cases k u with ⟨key, rfl, hUse⟩ | ⟨key, rfl, hUse⟩ | ⟨hEnd, hUse⟩ | ⟨hQuiet, hEnds, hUse⟩
  · exact hUse ▸ h.press key
  · exact hUse ▸ h.release key
  · have hQuiet : ∀ key : Key, u ≠ .press key.val ∧ u ≠ .release key.val := by
      rcases hEnd with rfl | rfl <;> simp
    have hEnds : u.EndsKept := hEnd.imp_right .inl
    rw [hUse]
    exact h.of_held_eq rfl hQuiet fun key => by simp [clearLatch, hEnds]
  · rw [hUse]
    exact h.of_held_eq rfl hQuiet fun key => by simp [h.latch_eq_iff, hEnds]

theorem useAll (h : k.Records past) (uses : List KeyUse) :
    (uses.foldl Keypad.use k).Records (past ++ uses) := by
  induction uses generalizing k past with
  | nil => exact (List.append_nil past).symm ▸ h
  | cons u uses ih =>
      have hRest := ih (h.use u)
      rwa [List.append_assoc] at hRest

theorem isLongestHeld_head (h : k.Records past) {rest : List Key} (hHeld : k.held = key :: rest) :
    IsLongestHeld past key := by
  have hOrder := h.pairwise_held
  rw [hHeld, List.pairwise_cons] at hOrder
  refine ⟨(h.mem_held_iff key).1 (hHeld ▸ List.mem_cons_self), fun other hOther hDown => ?_⟩
  have hMem := (h.mem_held_iff other).2 hDown
  rw [hHeld] at hMem
  exact hOrder.1 other ((List.mem_cons.1 hMem).resolve_left hOther)

/-- Whoever polls finds what the history says, and the history says nothing else. -/
theorem finds_iff (h : k.Records past) (found : Option Key) :
    Finds past found ↔ found = k.poll.1 := by
  simp only [poll]
  cases hLatch : k.latch with
  | some latest =>
      have hKept : ∀ key, Kept past key ↔ latest = key := by
        intro key
        rw [← h.latch_eq_iff, hLatch, Option.some.injEq]
      cases found with
      | none => simp [Finds, hKept]
      | some key => simp [Finds, hKept, eq_comm]
  | none =>
      have hNever : ∀ key, ¬Kept past key := by
        intro key
        rw [← h.latch_eq_iff, hLatch]
        simp
      cases hHeld : k.held with
      | nil =>
          have hFree : ∀ key, ¬IsDown past key := by
            intro key
            rw [← h.mem_held_iff, hHeld]
            exact List.not_mem_nil
          cases found with
          | none => simp [Finds, hNever, hFree]
          | some key => simp [Finds, hNever, hFree, IsLongestHeld]
      | cons first rest =>
          have hFirst := h.isLongestHeld_head hHeld
          cases found with
          | none =>
              refine iff_of_false (fun hFinds => hFinds.2 first hFirst.1) ?_
              simp
          | some key => simp [Finds, hNever, hFirst.eq_iff, eq_comm]

end Records

end Keypad

namespace Surface

open KeyUse

theorem keypad_afterUses (uses : List KeyUse) (s : Surface) :
    (s.afterUses uses).keypad = uses.foldl Keypad.use s.keypad := by
  induction uses generalizing s with
  | nil => rfl
  | cons u uses ih =>
      rw [List.foldl_cons, ← keypad_left_work]
      exact ih (u.work.left s)

/-- After any uses the keypad of a new surface is what their history says. -/
theorem records_afterUses (display : Display) (past : List KeyUse) :
    (({ display } : Surface).afterUses past).keypad.Records past := by
  rw [keypad_afterUses]
  exact Keypad.Records.new.useAll past

/-- What a surface answers to a further use of its keys, and what it leaves, is what the history of the
uses so far says. -/
structure AnswersByHistory (s : Surface) (past : List KeyUse) : Prop where
  on_work (u : KeyUse) : u.work.on s =
    match s.perform u.request with
    | .ok (reply, next) => (.ok reply, next)
    | .error f => (.error f, s)
  press_refused (code : Int) : ¬(0 ≤ code ∧ code ≤ 15) →
    (KeyUse.press code).work.on s = (.error (.noSuchKey code), s)
  press_done (code : Int) : 0 ≤ code ∧ code ≤ 15 →
    ∃ next, (KeyUse.press code).work.on s = (.ok .done, next)
  release_done (code : Int) : ∃ next, (KeyUse.release code).work.on s = (.ok .done, next)
  keyHeld_truth (code : Int) : ∃ down, (KeyUse.keyHeld code).work.on s = (.ok (.truth down), s) ∧
    (down = true ↔ ∃ key : Key, (key.val : Int) = code ∧ IsDown past key)
  mem_held_iff (key : Key) : key ∈ s.keypad.held ↔ IsDown past key
  nodup_held : s.keypad.held.Nodup
  /-- The keys stand in the order in which they began to be held. -/
  pairwise_held : s.keypad.held.Pairwise (HeldLonger past)
  /-- What is found is the one thing that the history says. -/
  poll_finds : ∃ found next,
    KeyUse.poll.work.on s = (.ok (.key (found.map fun key : Key => (key.val : Int))), next) ∧
      (∀ other, Finds past other ↔ other = found) ∧ next.keypad.held = s.keypad.held
  clearPress_done : ∃ next, KeyUse.clearPress.work.on s = (.ok .done, next) ∧
    next.keypad.held = s.keypad.held

theorem key?_eq_none_iff {code : Int} : key? code = none ↔ ¬(0 ≤ code ∧ code ≤ 15) := by
  unfold key? keyCount
  split
  · next h => exact iff_of_false (Option.some_ne_none _) (not_not.2 (by omega))
  · next h => exact iff_of_true rfl (by omega)

theorem keyHeld_iff {s : Surface} {past : List KeyUse} (h : s.keypad.Records past) (code : Int) :
    s.keyHeld code = true ↔ ∃ key : Key, (key.val : Int) = code ∧ IsDown past key := by
  unfold keyHeld
  cases hKey : key? code with
  | some key =>
      cases val_of_key? hKey
      rw [List.contains_iff_mem, h.mem_held_iff]
      refine ⟨fun hDown => ⟨key, rfl, hDown⟩, ?_⟩
      rintro ⟨other, hSame, hDown⟩
      exact Fin.ext (Int.ofNat_inj.1 hSame) ▸ hDown
  | none =>
      refine iff_of_false Bool.false_ne_true ?_
      rintro ⟨key, hSame, -⟩
      exact Keypad.ne_val_of_key?_eq_none hKey key hSame.symm

/-- However the keys of a new surface were used, it answers by the history of these uses: whether a key
is held, since when, and what a poll finds. -/
theorem answersByHistory_afterUses (display : Display) (past : List KeyUse) :
    (({ display } : Surface).afterUses past).AnswersByHistory past := by
  have hRecords := records_afterUses display past
  generalize ({ display } : Surface).afterUses past = s at hRecords
  constructor
  case on_work => exact fun u => KeyUse.on_work u s
  case press_refused =>
    intro code hCode
    rw [KeyUse.on_work, request, perform, press, key?_eq_none_iff.2 hCode]
    rfl
  case press_done =>
    intro code hCode
    cases hKey : key? code with
    | none => exact absurd hCode (key?_eq_none_iff.1 hKey)
    | some key =>
        rw [KeyUse.on_work, request, perform, press, hKey]
        exact ⟨_, rfl⟩
  case release_done =>
    intro code
    rw [KeyUse.on_work]
    exact ⟨_, rfl⟩
  case keyHeld_truth => exact fun code => ⟨_, rfl, keyHeld_iff hRecords code⟩
  case mem_held_iff => exact hRecords.mem_held_iff
  case nodup_held => exact hRecords.nodup_held
  case pairwise_held => exact hRecords.pairwise_held
  case poll_finds =>
    refine ⟨s.poll.1, s.poll.2, KeyUse.on_work .poll s, hRecords.finds_iff, ?_⟩
    simp only [poll, Keypad.poll]
    split <;> rfl
  case clearPress_done => exact ⟨_, rfl, rfl⟩

/-- A press of a key that is held already does not move it, and the latest press is kept after its
release. -/
example : (({} : Surface).afterUses [.press 3, .press 5, .press 3, .press 7, .release 7]).keypad =
    { held := [3, 5], latch := some 7 } := by decide

end Surface

end Chip8
