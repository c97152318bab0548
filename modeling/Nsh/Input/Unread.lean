import Nsh.Input.Frame

/-!
# Giving units back

What is given back is a count: so many units in front of the cursor are read again.  The
count belongs to the text that is read at the moment, so it undoes reading as long as that
text is the one the units were taken from.
-/

namespace Nsh.Input

/-- `unread_input_units`. -/
def unreadInputUnits (count : ℕ) (frame : InputFrame) : InputFrame :=
  { frame with unreadCount := frame.unreadCount + count }

/-- The frame after so many reads. -/
def readMany : ℕ → InputFrame → InputFrame
  | 0, frame => frame
  | count + 1, frame => readMany count (readInputUnit frame).2

/-- The next units of a frame.  A read stops the shell when more was given back than stands in
    front of the cursor. -/
def units : ℕ → InputFrame → Option (List InputUnit)
  | 0, _ => some []
  | count + 1, frame =>
    if frame.position < frame.unreadCount then none
    else (units count (readInputUnit frame).2).map ((readInputUnit frame).1 :: ·)

/-- So many units of some bytes and the end of the input behind them. -/
def unitsOf : ℕ → Bytes → List InputUnit
  | 0, _ => []
  | count + 1, bytes => .first bytes :: unitsOf count bytes.tail

/-- Reading on delivers these bytes, and then the end. -/
def Delivers (frame : InputFrame) (bytes : Bytes) : Prop :=
  ∀ count, units count frame = some (unitsOf count bytes)

/-- Some bytes stand directly in front of the cursor, in the text that is read. -/
def StandsBefore (frame : InputFrame) (bytes : Bytes) : Prop :=
  bytes.length + frame.unreadCount ≤ frame.position ∧
    frame.text.extract (frame.position - frame.unreadCount - bytes.length)
      (frame.position - frame.unreadCount) = bytes

section

variable {frame : InputFrame} {bytes rest : Bytes}

theorem Reads.delivers (h : Reads frame bytes) : Delivers frame bytes := by
  intro count
  induction count generalizing frame bytes with
  | zero => rfl
  | succ count ih =>
    obtain ⟨hunit, hrest⟩ := h.readInputUnit
    rw [units, if_neg (Nat.not_lt_of_le h.fits.unread), ih hrest, hunit]
    rfl

theorem unitsOf_injective {bytes other : Bytes}
    (h : ∀ count, unitsOf count bytes = unitsOf count other) : bytes = other := by
  induction bytes generalizing other with
  | nil =>
    cases other with
    | nil => rfl
    | cons byte other => cases h 1
  | cons byte bytes ih =>
    cases other with
    | nil => cases h 1
    | cons byte' other =>
      have hhead := List.head_eq_of_cons_eq (h 1)
      injection hhead with hbyte
      rw [hbyte, ih fun count => List.tail_eq_of_cons_eq (h (count + 1))]
      rfl

theorem Delivers.unique {other : Bytes} (h : Delivers frame bytes) (h' : Delivers frame other) :
    bytes = other :=
  unitsOf_injective fun count => Option.some.inj ((h count).symm.trans (h' count))

theorem Delivers.within (h : Delivers frame bytes) : frame.unreadCount ≤ frame.position := by
  have hone := h 1
  rw [units] at hone
  by_contra hlt
  rw [if_pos (Nat.lt_of_not_le hlt)] at hone
  cases hone

theorem Reads.readMany (h : Reads frame (bytes ++ rest)) :
    Reads (Input.readMany bytes.length frame) rest := by
  induction bytes generalizing frame with
  | nil => exact h
  | cons byte bytes ih => exact ih h.readInputUnit.2

theorem readMany_add (m n : ℕ) (frame : InputFrame) :
    readMany (m + n) frame = readMany n (readMany m frame) := by
  induction m generalizing frame with
  | zero => rw [Nat.zero_add, readMany]
  | succ m ih => rw [Nat.succ_add, readMany, ih, readMany]

/-! ### By count -/

/-- So many units are read again: those directly in front of the cursor. -/
theorem Reads.unreadInputUnits {count : ℕ} (h : Reads frame rest)
    (hwithin : count + frame.unreadCount ≤ frame.position) :
    Reads (Input.unreadInputUnits count frame)
      (frame.text.extract (frame.position - frame.unreadCount - count)
        (frame.position - frame.unreadCount) ++ rest) := by
  have hfits : Fits frame.text frame.position frame.lineRemaining (frame.unreadCount + count) :=
    ⟨by omega, h.fits.within⟩
  refine ⟨hfits, h.under, ?_⟩
  rw [← h.upcoming, InputFrame.upcoming, InputFrame.upcoming]
  show ahead frame.text frame.position frame.lineRemaining (frame.unreadCount + count) ++ _ ++ _ = _
  have hsplit : ahead frame.text frame.position frame.lineRemaining (frame.unreadCount + count) =
      frame.text.extract (frame.position - frame.unreadCount - count)
        (frame.position - frame.unreadCount) ++
        ahead frame.text frame.position frame.lineRemaining frame.unreadCount := by
    rw [ahead, ahead, extract_append (by omega) (by omega), Nat.sub_sub]
  rw [hsplit]
  simp only [List.append_assoc]
  rfl

/-- **Giving units back** by their count delivers them again where they stand in front of the
    cursor. -/
theorem delivers_unreadInputUnits (h : Reads frame rest) (bytes : Bytes) :
    Delivers (unreadInputUnits bytes.length frame) (bytes ++ rest) ↔ StandsBefore frame bytes := by
  constructor
  · intro hdelivers
    have hwithin : bytes.length + frame.unreadCount ≤ frame.position := by
      have := hdelivers.within
      rw [unreadInputUnits] at this
      simp only at this
      omega
    exact ⟨hwithin, List.append_cancel_right
      ((h.unreadInputUnits hwithin).delivers.unique hdelivers)⟩
  · rintro ⟨hwithin, hbytes⟩
    have hreads := h.unreadInputUnits hwithin
    rw [hbytes] at hreads
    exact hreads.delivers

/-! ### One at a time -/

theorem unreadInputUnit_iterate (hopen : frame.eofObserved = false) (count : ℕ) :
    unreadInputUnit^[count] frame = unreadInputUnits count frame := by
  induction count generalizing frame with
  | zero => rfl
  | succ count ih =>
    have hone : unreadInputUnit frame = unreadInputUnits 1 frame := by
      rw [unreadInputUnit, hopen]
      cases frame
      simp only at hopen
      rw [hopen]
      rfl
    have hopen' : (unreadInputUnits 1 frame).eofObserved = false := hopen
    rw [Function.iterate_succ_apply, hone, ih hopen', unreadInputUnits, unreadInputUnits,
      unreadInputUnits]
    simp only [Nat.add_assoc, Nat.add_comm 1 count]

/-- An end of input that was observed takes the place of one unit. -/
theorem unreadInputUnit_observed (hobserved : frame.eofObserved = true) (count : ℕ) :
    unreadInputUnit^[count + 1] frame =
      unreadInputUnits count { frame with eofObserved := false } := by
  have hone : unreadInputUnit frame = { frame with eofObserved := false } := by
    rw [unreadInputUnit, hobserved]
    rfl
  rw [Function.iterate_succ_apply, hone, unreadInputUnit_iterate rfl]

theorem delivers_unreadInputUnit (h : Reads frame rest) (hne : bytes ≠ []) :
    Delivers (unreadInputUnit^[bytes.length] frame) (bytes ++ rest) ↔
      frame.eofObserved = false ∧ StandsBefore frame bytes := by
  cases hobserved : frame.eofObserved with
  | false =>
    rw [unreadInputUnit_iterate hobserved, delivers_unreadInputUnits h bytes]
    simp
  | true =>
    obtain ⟨count, hcount⟩ : ∃ count, bytes.length = count + 1 :=
      ⟨bytes.length - 1, by have := List.length_pos_iff.mpr hne; omega⟩
    rw [hcount, unreadInputUnit_observed hobserved]
    refine ⟨fun hdelivers => ?_, fun hfalse => by cases hfalse.1⟩
    have hreads : Reads { frame with eofObserved := false } rest := ⟨h.fits, h.under, h.upcoming⟩
    have hwithin := hdelivers.within
    have hcounted : count + frame.unreadCount ≤ frame.position := by
      rw [unreadInputUnits] at hwithin
      dsimp only at hwithin
      omega
    have hsame := (hreads.unreadInputUnits hcounted).delivers.unique hdelivers
    have hlength := congrArg List.length hsame
    have hfits := h.fits.within
    rw [List.length_append, List.length_append, hcount, length_extract] at hlength
    · simp only at hlength
      omega
    · simp only
      show frame.position - frame.unreadCount ≤ frame.text.length
      omega

/-! ### Where the units stand -/

/-- A unit of the text under the cursor stands in front of it afterwards. -/
theorem readText_cursor {read : InputUnit × InputFrame}
    (h : Fits frame.text frame.position frame.lineRemaining frame.unreadCount)
    (hread : readText frame = some read) :
    read.2.text = frame.text ∧ read.2.overlays = frame.overlays ∧
      read.2.eofObserved = frame.eofObserved ∧
      read.2.position - read.2.unreadCount = frame.position - frame.unreadCount + 1 ∧
      read.2.unreadCount ≤ read.2.position ∧
      ∃ byte, read.1 = .byte byte ∧
        frame.text[frame.position - frame.unreadCount]? = some byte := by
  have hunread := h.unread
  have hwithin := h.within
  unfold readText at hread
  split at hread
  · next hne =>
    obtain rfl := Option.some.inj hread
    have hlt : frame.position - frame.unreadCount < frame.text.length := by omega
    refine ⟨rfl, rfl, rfl, ?_, ?_, _, rfl, ?_⟩
    · simp only
      omega
    · simp only
      omega
    · rw [getD_of_lt hlt]
      exact List.getElem?_eq_getElem hlt
  · next hne =>
    split at hread
    · next hline =>
      obtain rfl := Option.some.inj hread
      have hzero : frame.unreadCount = 0 := by simpa using hne
      have hlt : frame.position < frame.text.length := by omega
      refine ⟨rfl, rfl, rfl, ?_, ?_, _, rfl, ?_⟩
      · simp only
        omega
      · simp only
        omega
      · rw [hzero, Nat.sub_zero, getD_of_lt hlt]
        exact List.getElem?_eq_getElem hlt
    · cases hread

theorem readText_overlays {read : InputUnit × InputFrame} (hread : readText frame = some read) :
    read.2.overlays = frame.overlays := by
  unfold readText at hread
  split at hread
  · obtain rfl := Option.some.inj hread
    rfl
  · split at hread
    · obtain rfl := Option.some.inj hread
      rfl
    · cases hread

theorem refillInputBuffer_overlays (frame : InputFrame) :
    (refillInputBuffer frame).2.overlays = frame.overlays := by
  unfold refillInputBuffer
  split
  · rfl
  · dsimp only
    split
    · rfl
    · rfl

/-- A read pushes no string. -/
theorem readThrough_overlays {overlays : List InputOverlay} {frame : InputFrame}
    (hoverlays : frame.overlays = overlays) :
    (readThrough overlays frame).2.overlays.length ≤ overlays.length := by
  induction overlays generalizing frame with
  | nil =>
    rw [readThrough]
    cases hread : readText frame with
    | some read => exact le_of_eq (congrArg List.length ((readText_overlays hread).trans hoverlays))
    | none =>
      exact le_of_eq (congrArg List.length ((refillInputBuffer_overlays frame).trans hoverlays))
  | cons overlay overlays ih =>
    rw [readThrough]
    cases hread : readText frame with
    | some read => exact le_of_eq (congrArg List.length ((readText_overlays hread).trans hoverlays))
    | none => exact Nat.le_succ_of_le (ih rfl)

theorem readMany_overlays (count : ℕ) (frame : InputFrame) :
    (readMany count frame).overlays.length ≤ frame.overlays.length := by
  induction count generalizing frame with
  | zero => exact Nat.le_refl _
  | succ count ih => exact Nat.le_trans (ih _) (readThrough_overlays rfl)

/-- A read that pops nothing takes its unit from the text under the cursor, or refills the
    buffer. -/
theorem readInputUnit_cases
    (hsame : (readInputUnit frame).2.overlays.length = frame.overlays.length) :
    readText frame = some (readInputUnit frame) ∨
      readText frame = none ∧ frame.overlays = [] ∧
        readInputUnit frame = refillInputBuffer frame := by
  revert hsame
  unfold readInputUnit
  generalize hoverlays : frame.overlays = overlays
  intro hsame
  cases overlays with
  | nil =>
    rw [readThrough]
    cases hread : readText frame with
    | some read => exact .inl rfl
    | none => exact .inr ⟨rfl, rfl, rfl⟩
  | cons overlay overlays =>
    rw [readThrough] at hsame ⊢
    cases hread : readText frame with
    | some read => exact .inl rfl
    | none =>
      rw [hread] at hsame
      dsimp only at hsame
      have hpopped :
          (readThrough overlays (popStringInput overlay overlays frame)).2.overlays.length
          ≤ overlays.length := readThrough_overlays rfl
      rw [List.length_cons] at hsame
      omega

theorem standsBefore_iff
    (h : Fits frame.text frame.position frame.lineRemaining frame.unreadCount) :
    StandsBefore frame bytes ↔ bytes <:+ frame.text.take (frame.position - frame.unreadCount) := by
  have hunread := h.unread
  have hwithin := h.within
  have hlength : (frame.text.take (frame.position - frame.unreadCount)).length =
      frame.position - frame.unreadCount := by
    rw [List.length_take]
    omega
  rw [StandsBefore, List.suffix_iff_eq_drop, hlength, List.extract_eq_take_drop,
    ← List.drop_take]
  constructor
  · rintro ⟨hle, hbytes⟩
    exact hbytes.symm
  · intro hbytes
    have hle := congrArg List.length hbytes
    rw [List.length_drop, hlength] at hle
    exact ⟨by omega, hbytes.symm⟩

/-- A refill that hands over a byte keeps what may be given back in front of it. -/
theorem refillInputBuffer_cursor {byte : UInt8} (hnone : frame.overlays = [])
    (hunread : frame.unreadCount = 0) (hposition : frame.position ≤ frame.buffer.length)
    (hunit : (refillInputBuffer frame).1 = .byte byte) :
    (refillInputBuffer frame).2.text.take
        ((refillInputBuffer frame).2.position - (refillInputBuffer frame).2.unreadCount) =
      frame.buffer.extract (frame.position - min frame.position maxUnreadUnits) frame.position ++
        [byte] := by
  have hretained : (frame.buffer.extract (frame.position - min frame.position maxUnreadUnits)
      frame.position).length = min frame.position maxUnreadUnits := by
    rw [length_extract hposition]
    omega
  unfold refillInputBuffer at hunit ⊢
  by_cases hlatched : frame.eofLatched = true
  · rw [if_pos hlatched] at hunit
    cases hunit
  · rw [if_neg hlatched] at hunit ⊢
    dsimp only at hunit ⊢
    generalize nextLine frame.source = next at hunit ⊢
    obtain ⟨line, source⟩ := next
    cases line with
    | nil => cases hunit
    | cons first line =>
      injection hunit with hfirst
      subst hfirst
      show (textUnder _ frame.overlays).take (min frame.position maxUnreadUnits + 1 -
        frame.unreadCount) = _
      rw [hnone, hunread, Nat.sub_zero, textUnder]
      generalize frame.buffer.extract (frame.position - min frame.position maxUnreadUnits)
        frame.position = retained at hretained ⊢
      rw [← hretained, List.take_length_add_append, List.take_one]
      rfl

/-- Reading on in the text that is read puts the unit behind those in front of the cursor; a
    refill keeps as many as may be given back. -/
theorem StandsBefore.readInputUnit {byte : UInt8} (hstands : StandsBefore frame bytes)
    (h : Reads frame (byte :: rest)) (hroom : bytes.length < maxUnreadUnits)
    (hsame : (readInputUnit frame).2.overlays.length = frame.overlays.length) :
    StandsBefore (Input.readInputUnit frame).2 (bytes ++ [byte]) := by
  obtain ⟨hunit, hafter⟩ := h.readInputUnit
  rw [standsBefore_iff h.fits] at hstands
  rw [standsBefore_iff hafter.fits]
  rcases readInputUnit_cases hsame with hread | ⟨hread, hnone, hrefill⟩
  · obtain ⟨htext, hoverlays, heof, hcursor, hle, byte', hbyte', hgiven⟩ :=
      readText_cursor h.fits hread
    rw [hunit] at hbyte'
    injection hbyte' with hbyte'
    rw [hcursor, htext, List.take_add_one, hgiven, ← hbyte']
    exact List.suffix_append_self_iff.mpr hstands
  · obtain ⟨hunread, hline⟩ := readText_none hread
    have htext : frame.text = frame.buffer := by
      rw [InputFrame.text, hnone]
      rfl
    have hposition : frame.position ≤ frame.buffer.length := by
      have := h.fits.within
      rw [htext] at this
      omega
    rw [hrefill] at hunit ⊢
    rw [hunread, htext, Nat.sub_zero] at hstands
    rw [refillInputBuffer_cursor hnone hunread hposition hunit]
    have hretained : frame.buffer.extract (frame.position - min frame.position maxUnreadUnits)
        frame.position <:+ frame.buffer.take frame.position := by
      rw [List.extract_eq_take_drop, ← List.drop_take]
      exact List.drop_suffix _ _
    have hlength : bytes.length ≤ (frame.buffer.extract
        (frame.position - min frame.position maxUnreadUnits) frame.position).length := by
      have hle := hstands.length_le
      rw [List.length_take] at hle
      rw [length_extract hposition]
      omega
    exact List.suffix_append_self_iff.mpr
      (List.suffix_of_suffix_length_le hstands hretained hlength)

theorem readInputUnit_eofObserved {byte : UInt8} (h : Reads frame (byte :: rest)) :
    (readInputUnit frame).2.eofObserved = frame.eofObserved := by
  have hleaves : Leaves (readInputUnit frame) frame.eofObserved := h.readThrough_leaves
  rw [Leaves, h.readInputUnit.1] at hleaves
  exact hleaves.2.2

theorem readMany_eofObserved (h : Reads frame (bytes ++ rest)) :
    (readMany bytes.length frame).eofObserved = frame.eofObserved := by
  induction bytes generalizing frame with
  | nil => rfl
  | cons byte bytes ih =>
    exact (ih h.readInputUnit.2).trans (readInputUnit_eofObserved h)

/-- Units that were read while no string was popped stand in front of the cursor. -/
theorem StandsBefore.readMany {front : Bytes} (hstands : StandsBefore frame front)
    (h : Reads frame (bytes ++ rest)) (hroom : front.length + bytes.length ≤ maxUnreadUnits)
    (hsame : (readMany bytes.length frame).overlays.length = frame.overlays.length) :
    StandsBefore (Input.readMany bytes.length frame) (front ++ bytes) := by
  induction bytes generalizing frame front with
  | nil =>
    rw [List.append_nil]
    exact hstands
  | cons byte bytes ih =>
    rw [List.length_cons] at hroom
    have hfirst : (Input.readInputUnit frame).2.overlays.length ≤ frame.overlays.length :=
      readThrough_overlays rfl
    have hothers := readMany_overlays bytes.length (Input.readInputUnit frame).2
    have hstep : (Input.readInputUnit frame).2.overlays.length = frame.overlays.length :=
      Nat.le_antisymm hfirst (hsame.symm.le.trans hothers)
    have hnext := hstands.readInputUnit h (by omega) hstep
    rw [show front ++ byte :: bytes = front ++ [byte] ++ bytes by simp]
    apply ih hnext h.readInputUnit.2
    · rw [List.length_append, List.length_singleton]
      omega
    · exact hsame.trans hstep.symm

theorem standsBefore_nil (h : Reads frame rest) : StandsBefore frame [] :=
  (standsBefore_iff h.fits).mpr List.nil_suffix

/-- **Giving back the last units read** delivers them again exactly where they stand in front
    of the cursor, and one at a time only with no end of the input observed before; they stand
    there wherever no string was popped since the first of them was read. -/
theorem readMany_unread {front : Bytes} (h : Reads frame (front ++ rest))
    (hwindow : front.length ≤ maxUnreadUnits) {count : ℕ} (hcount : count ≤ front.length) :
    (Delivers (unreadInputUnits count (readMany front.length frame))
        (front.drop (front.length - count) ++ rest) ↔
      StandsBefore (readMany front.length frame) (front.drop (front.length - count))) ∧
    (Delivers (unreadInputUnit^[count] (readMany front.length frame))
        (front.drop (front.length - count) ++ rest) ↔
      count = 0 ∨ frame.eofObserved = false ∧
        StandsBefore (readMany front.length frame) (front.drop (front.length - count))) ∧
    ((readMany (front.length - count) frame).overlays.length =
        (readMany front.length frame).overlays.length →
      StandsBefore (readMany front.length frame) (front.drop (front.length - count))) := by
  have hafter : Reads (readMany front.length frame) rest := h.readMany
  have hlength : (front.drop (front.length - count)).length = count := by
    rw [List.length_drop]
    omega
  refine ⟨?_, ?_, ?_⟩
  · have hback := delivers_unreadInputUnits hafter (front.drop (front.length - count))
    rwa [hlength] at hback
  · by_cases hzero : count = 0
    · subst hzero
      rw [Nat.sub_zero, List.drop_length, Function.iterate_zero, id]
      exact ⟨fun _ => .inl rfl, fun _ => hafter.delivers⟩
    · have hne : front.drop (front.length - count) ≠ [] := by
        rw [← List.length_pos_iff, hlength]
        exact Nat.pos_of_ne_zero hzero
      have hback := delivers_unreadInputUnit hafter hne
      rw [hlength, readMany_eofObserved h] at hback
      rw [hback]
      exact ⟨.inr, fun hor => hor.resolve_left hzero⟩
  · intro hsame
    have hsplit : front = front.take (front.length - count) ++ front.drop (front.length - count) :=
      (List.take_append_drop _ _).symm
    have htaken : (front.take (front.length - count)).length = front.length - count := by
      rw [List.length_take]
      omega
    have hbefore : Reads (readMany (front.length - count) frame)
        (front.drop (front.length - count) ++ rest) := by
      rw [hsplit, List.append_assoc] at h
      have hmany := h.readMany
      rwa [htaken] at hmany
    have hlater : readMany front.length frame =
        readMany (front.drop (front.length - count)).length
          (readMany (front.length - count) frame) := by
      rw [hlength, ← readMany_add, Nat.sub_add_cancel hcount]
    rw [hlater] at hsame ⊢
    refine (standsBefore_nil hbefore).readMany hbefore ?_ hsame.symm
    rw [hlength, List.length_nil]
    omega

end

/-- What was read of one string is given back. -/
theorem readMany_unread_string :
    Delivers (unreadInputUnits 1 (readMany 2 (setInputString (text "abc")))) (text "bc") := by
  have hreads : Reads (setInputString (text "abc")) (text "ab" ++ text "c") :=
    reads_setInputString (text "abc")
  obtain ⟨hcount, -, hstands⟩ := readMany_unread hreads (by decide) (show 1 ≤ 2 by decide)
  exact hcount.mpr (hstands rfl)

/-- A pushed string of one byte over a text of one byte. -/
def acrossOverlay : InputFrame := pushStringInput (text "a") (setInputString (text "b"))

theorem reads_acrossOverlay : Reads acrossOverlay (text "ab") :=
  (reads_setInputString (text "b")).pushStringInput (text "a")

/-- A byte that was read from a string is not given back once the string was popped. -/
theorem not_readMany_unread :
    ¬ ∀ (frame : InputFrame) (front rest : Bytes) (count : ℕ), Reads frame (front ++ rest) →
        front.length ≤ maxUnreadUnits → count ≤ front.length →
        Delivers (unreadInputUnits count (readMany front.length frame))
            (front.drop (front.length - count) ++ rest) ∧
          Delivers (unreadInputUnit^[count] (readMany front.length frame))
            (front.drop (front.length - count) ++ rest) := by
  intro h
  have hback := (h acrossOverlay (text "ab") [] 2 reads_acrossOverlay (by decide) (by decide)).1
  have hone := hback 1
  revert hone
  decide

end Nsh.Input
