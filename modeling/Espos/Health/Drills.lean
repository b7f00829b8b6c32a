import Mathlib.Data.List.Nodup
import Espos.Health.Table
import Espos.Lib.Clock
import Espos.Lib.Run

-- The synthetic conditions of `espos_health.c`: one drill at a time, and the
-- slots that name what of it may still be raised. A transition is one call, for
-- `test_lock` is held over all of it; each `lock()` in it may time out.

namespace Espos.Health

open Espos.Clock Espos.Text

def testPrefix : CStr := lit "test."
def testTtlMaxMs : UInt32 := 300000

structure Drills (K : Kconfig) where
  table : Table K
  testKey : Buf keyMax
  testDeadlineMs : UInt32
  testArmed : Bool
  testPendingClear : Buf keyMax
  -- History only, nothing below reads it: what the drills have raised.
  raised : List (Buf keyMax)

-- Whether each `lock()` of `flush_pending_clear` gets the lock, the one in its
-- report included.
structure FlushLocks where
  read : Bool
  report : Bool
  forget : Bool
deriving DecidableEq

structure TestLocks where
  test : Bool
  flush : FlushLocks
  claim : Bool
  report : Bool
  rollback : Bool
  clear : Bool
  release : Bool
deriving DecidableEq

structure ExpireLocks where
  test : Bool
  flush : FlushLocks
  read : Bool
  report : Bool
  forget : Bool
deriving DecidableEq

variable {K : Kconfig}

namespace Drills

def start (T : Table K) : Drills K :=
  ⟨T, .empty, 0, false, .empty, []⟩

def reportEx (d : Drills K) (locked : Bool) (key : Option CStr) (state : Int)
    (message : Option CStr) (flags : UInt32) : EspErr × Drills K :=
  match checkReport key state message flags with
  | .error err => (err, d)
  | .ok (key, shown) =>
    if locked then
      match reportLocked d.table key shown flags with
      | .refused err => (err, d)
      | .quiet T => (.ok, { d with table := T })
      | .stored T => (.ok, { d with table := T })
    else (.timeout, d)

-- The report that clears a drill.
def reportNormal (d : Drills K) (locked : Bool) (key : Buf keyMax) : EspErr × Drills K :=
  d.reportEx locked (some key.chars) 0 (some []) 0

def forgetPending (d : Drills K) (key : Buf keyMax) : Drills K :=
  if d.testPendingClear = key then { d with testPendingClear := .empty } else d

def flushPendingClear (d : Drills K) (locks : FlushLocks) : Bool × Drills K :=
  if locks.read then
    let due := d.testPendingClear
    if due.isEmpty then (true, d)
    else
      match d.reportNormal locks.report due with
      | (.ok, d) => if locks.forget then (true, d.forgetPending due) else (false, d)
      | (_, d) => (false, d)
  else (false, d)

-- The key of a drill that a new one replaces.
def previous (d : Drills K) (key : CStr) : Option (Buf keyMax) :=
  if d.testArmed ∧ d.testKey.chars ≠ key then some d.testKey else none

-- The bookkeeping of a transition, before anything is reported: whatever might
-- still be raised is named by one of the slots.
def claim (d : Drills K) (now : UInt32) (key : CStr) (state : Int) (ttlMs : UInt32) : Drills K :=
  let d :=
    match d.previous key with
    | some previous => { d with testPendingClear := previous }
    | none => d
  if state ≠ 0 then
    { d with testKey := .print key, testDeadlineMs := now + ttlMs, testArmed := true }
  else if d.testKey.chars = key then { d with testKey := .empty, testArmed := false }
  else d

-- Puts the bookkeeping of `saved` back.
def rollback (d saved : Drills K) (previous : Option (Buf keyMax)) : Drills K :=
  let d :=
    { d with
      testKey := saved.testKey
      testDeadlineMs := saved.testDeadlineMs
      testArmed := saved.testArmed }
  match previous with
  | some previous => d.forgetPending previous
  | none => d

def clearPrevious (d : Drills K) (locks : TestLocks) (previous : Buf keyMax) : Drills K :=
  match d.reportNormal locks.clear previous with
  | (.ok, d) => if locks.release then d.forgetPending previous else d
  | (_, d) => d

def transition (d : Drills K) (locks : TestLocks) (now : UInt32) (key : CStr) (state : Int)
    (message : Option CStr) (ttlMs : UInt32) : EspErr × Drills K :=
  match (d.claim now key state ttlMs).reportEx locks.report (some key) state
      (some (message.getD [])) 0 with
  | (.ok, d') =>
    let d' := if state ≠ 0 then { d' with raised := d'.raised ++ [.print key] } else d'
    match d.previous key with
    | some previous => (.ok, d'.clearPrevious locks previous)
    | none => (.ok, d')
  | (err, d') => (err, if locks.rollback then d'.rollback d (d.previous key) else d')

-- The checks that are made before anything changes.
def checkTest (key : Option CStr) (state : Int) (message : Option CStr) (ttlMs : UInt32) :
    Except EspErr CStr :=
  match key with
  | none => .error .invalidArg
  | some key =>
    if ¬testPrefix <+: key then .error .invalidArg
    else if key.length = testPrefix.length then .error .invalidArg
    else if State.ofInt? state = none then .error .invalidArg
    else if state ≠ 0 ∧ (ttlMs = 0 ∨ testTtlMaxMs < ttlMs) then .error .invalidArg
    else if keyMax ≤ key.length then .error .invalidSize
    else if msgMax ≤ (message.getD []).length then .error .invalidSize
    else .ok key

def reportTest (d : Drills K) (locks : TestLocks) (now : UInt32) (key : Option CStr) (state : Int)
    (message : Option CStr) (ttlMs : UInt32) : EspErr × Drills K :=
  match checkTest key state message ttlMs with
  | .error err => (err, d)
  | .ok key =>
    if locks.test then
      match d.flushPendingClear locks.flush with
      | (false, d) => (.timeout, d)
      | (true, d) =>
        if locks.claim then d.transition locks now key state message ttlMs else (.timeout, d)
    else (.timeout, d)

def testExpire (d : Drills K) (locks : ExpireLocks) (now : UInt32) : Bool × Drills K :=
  if locks.test then
    let d := (d.flushPendingClear locks.flush).2
    if locks.read then
      if d.testArmed ∧ 0 ≤ ahead now d.testDeadlineMs ∧ ¬d.testKey.isEmpty then
        let due := d.testKey
        match d.reportNormal locks.report due with
        | (.ok, d) =>
          if locks.forget ∧ d.testArmed ∧ d.testKey = due then
            (true, { d with testKey := .empty, testArmed := false })
          else (true, d)
        | (_, d) => (false, d)
      else (false, d)
    else (false, d)
  else (false, d)

end Drills

inductive DrillCall where
  | reportTest (locks : TestLocks) (now : UInt32) (key : Option CStr) (state : Int)
      (message : Option CStr) (ttlMs : UInt32)
  | testExpire (locks : ExpireLocks) (now : UInt32)

namespace Drills

def step (d : Drills K) : DrillCall → Drills K
  | .reportTest locks now key state message ttlMs =>
    (d.reportTest locks now key state message ttlMs).2
  | .testExpire locks now => (d.testExpire locks now).2

end Drills

end Espos.Health

-- What a report does to the table.

namespace Espos.Health

open Espos.Text

variable {K : Kconfig}

-- What an accepted report leaves in the table.
structure Takes (T T' : Table K) (key : Buf keyMax) (shown : Shown) (flags : UInt32) : Prop where
  stands : ∃ c ∈ T'.conds, c.key = key
  news : ∀ c ∈ T'.conds, c.key = key → c.shown = shown ∧ c.flags = flags
  others : ∀ c, c.key ≠ key → (c ∈ T'.conds ↔ c ∈ T.conds)

section Table

variable {T T' : Table K} {key : Buf keyMax} {shown : Shown} {flags : UInt32}

theorem Table.eq_of_key {c d : Condition} (hc : c ∈ T.conds) (hd : d ∈ T.conds)
    (hkey : c.key = d.key) : c = d :=
  List.inj_on_of_nodup_map T.nodup hc hd hkey

theorem takes_push (hfound : T.find key = none) (hroom : T.conds.length < K.healthMaxConditions) :
    Takes T (T.push ⟨key, shown.1, shown.2, flags⟩ hfound hroom) key shown flags := by
  have hnew := Table.find_eq_none hfound
  constructor
  case stands => exact ⟨_, List.mem_append_right _ (List.mem_singleton_self _), rfl⟩
  case news =>
    intro c hc hkey
    simp only [Table.push, List.mem_append, List.mem_singleton] at hc
    cases hc with
    | inl hold => exact absurd (List.mem_map.mpr ⟨c, hold, hkey⟩) hnew
    | inr hpushed => simp [hpushed, Condition.shown]
  case others =>
    intro c hkey
    simp only [Table.push, List.mem_append, List.mem_singleton, or_iff_left_iff_imp]
    intro hpushed
    exact absurd (by rw [hpushed]) hkey

theorem takes_change {f : Condition → Condition} {hf : ∀ c, (f c).key = c.key} {c₀ : Condition}
    (hfound : T.find key = some c₀) (hat : (f c₀).shown = shown ∧ (f c₀).flags = flags)
    (hoff : ∀ c, c.key ≠ key → f c = c) : Takes T (T.change f hf) key shown flags := by
  obtain ⟨hmem, hkey₀⟩ := Table.find_some hfound
  constructor
  case stands => exact ⟨f c₀, List.mem_map_of_mem hmem, by rw [hf, hkey₀]⟩
  case news =>
    intro c hc hkey
    obtain ⟨d, hd, rfl⟩ := List.mem_map.mp hc
    obtain rfl : d = c₀ := Table.eq_of_key hd hmem (by rw [hkey₀, ← hkey, hf])
    exact hat
  case others =>
    intro c hkey
    simp only [Table.change, List.mem_map]
    constructor
    · rintro ⟨d, hd, rfl⟩
      rw [hf] at hkey
      rwa [hoff d hkey]
    · intro hc
      exact ⟨c, hc, hoff c hkey⟩

-- The key has a slot, or can have one.
def Table.Room (T : Table K) (key : Buf keyMax) : Prop :=
  key ∈ T.conds.map Condition.key ∨ T.conds.length < K.healthMaxConditions

-- A report is accepted, unless it needs a slot and there is none left.
theorem reportLocked_takes (T : Table K) (key : Buf keyMax) (shown : Shown) (flags : UInt32) :
    (T.Room key ∧ ∃ T', Takes T T' key shown flags ∧
      (reportLocked T key shown flags = .quiet T' ∨ reportLocked T key shown flags = .stored T')) ∨
    ¬T.Room key ∧ reportLocked T key shown flags = .refused .noMem := by
  rw [reportLocked]
  split
  next hfound =>
    have hnew := Table.find_eq_none hfound
    split
    next hroom => exact .inl ⟨.inr hroom, _, takes_push hfound hroom, .inr rfl⟩
    next hroom => exact .inr ⟨by simp [Table.Room, hnew, hroom], rfl⟩
  next c hfound =>
    obtain ⟨hmem, hkey⟩ := Table.find_some hfound
    have hroom : T.Room key := .inl (List.mem_map.mpr ⟨c, hmem, hkey⟩)
    split
    next hshown =>
      refine .inl ⟨hroom, _, takes_change hfound ?_ ?_, .inl rfl⟩
      · rw [Table.withFlags, if_pos hkey]
        exact ⟨hshown, rfl⟩
      · intro d hd
        rw [Table.withFlags, if_neg hd]
    next =>
      refine .inl ⟨hroom, _, takes_change hfound ?_ ?_, .inr rfl⟩
      · rw [Table.withReport, if_pos hkey]
        exact ⟨rfl, rfl⟩
      · intro d hd
        rw [Table.withReport, if_neg hd]

theorem Takes.keys (h : Takes T T' key shown 0) {k : Buf keyMax}
    (hk : k ∈ T.conds.map Condition.key) : k ∈ T'.conds.map Condition.key := by
  obtain ⟨c, hc, rfl⟩ := List.mem_map.mp hk
  by_cases hkey : c.key = key
  · obtain ⟨c', hc', hkey'⟩ := h.stands
    exact List.mem_map.mpr ⟨c', hc', by rw [hkey', hkey]⟩
  · exact List.mem_map.mpr ⟨c, (h.others c hkey).mpr hc, rfl⟩

end Table

end Espos.Health

-- What of a drill is raised, and what names it.

namespace Espos.Health

open Espos.Clock Espos.Text Espos.Run

variable {K : Kconfig}

def FlushLocks.all : FlushLocks :=
  ⟨true, true, true⟩

def TestLocks.all : TestLocks :=
  ⟨true, .all, true, true, true, true, true⟩

def ExpireLocks.all : ExpireLocks :=
  ⟨true, .all, true, true, true⟩

namespace Drills

variable {d d' : Drills K}

-- A report changes the table alone, or nothing.
theorem reportEx_cases (d : Drills K) (locked : Bool) {text : Option CStr} {state : Int}
    {message : Option CStr} {key : Buf keyMax} {shown : Shown}
    (hcheck : checkReport text state message 0 = .ok (key, shown)) :
    (locked = true ∧ d.table.Room key) ∧ (∃ T', Takes d.table T' key shown 0 ∧
      d.reportEx locked text state message 0 = (.ok, { d with table := T' })) ∨
    ¬(locked = true ∧ d.table.Room key) ∧
      ∃ err, err ≠ .ok ∧ d.reportEx locked text state message 0 = (err, d) := by
  simp only [reportEx, hcheck]
  cases locked with
  | false => exact .inr ⟨by simp, .timeout, by decide, rfl⟩
  | true =>
    rcases reportLocked_takes d.table key shown 0 with ⟨hroom, T', htakes, hquiet | hstored⟩ | hfull
    · exact .inl ⟨⟨rfl, hroom⟩, T', htakes, by simp [hquiet]⟩
    · exact .inl ⟨⟨rfl, hroom⟩, T', htakes, by simp [hstored]⟩
    · exact .inr ⟨by simp [hfull.1], .noMem, by decide, by simp [hfull.2]⟩

-- A drill that shows in the table.
def Raised (d : Drills K) (c : Condition) : Prop :=
  c ∈ d.table.conds ∧ c.key ∈ d.raised ∧ c.state ≠ .normal

-- One of the slots has the key, so a later expiry pass will come to it.
def Named (d : Drills K) (key : Buf keyMax) : Prop :=
  (d.testArmed = true ∧ d.testKey = key) ∨ d.testPendingClear = key

def NoOrphan (d : Drills K) : Prop :=
  ∀ c, d.Raised c → d.Named c.key

-- What holds of the drills whatever fails.
structure Kept (d : Drills K) : Prop where
  armed : d.testArmed = true → d.testKey ≠ .empty
  nonempty : ∀ key ∈ d.raised, key ≠ .empty
  inTable : ∀ key ∈ d.raised, key ∈ d.table.conds.map Condition.key
  flagless : ∀ c ∈ d.table.conds, c.key ∈ d.raised → c.flags = 0

section Report

variable {T' : Table K} {key : Buf keyMax} {shown : Shown}

theorem Kept.report (hkept : d.Kept) (htakes : Takes d.table T' key shown 0) :
    Kept { d with table := T' } := by
  constructor
  case armed => exact hkept.armed
  case nonempty => exact hkept.nonempty
  case inTable =>
    intro k hk
    exact htakes.keys (hkept.inTable k hk)
  case flagless =>
    intro c hc hraised
    by_cases hkey : c.key = key
    · exact (htakes.news c hc hkey).2
    · exact hkept.flagless c ((htakes.others c hkey).mp hc) hraised

theorem raised_report (htakes : Takes d.table T' key shown 0) {c : Condition}
    (hc : Raised { d with table := T' } c) :
    c.key = key ∧ c.state = shown.1 ∨ c.key ≠ key ∧ d.Raised c := by
  obtain ⟨hmem, hraised, hstate⟩ := hc
  by_cases hkey : c.key = key
  · have hshown := (htakes.news c hmem hkey).1
    exact .inl ⟨hkey, by rw [← hshown, Condition.shown]⟩
  · exact .inr ⟨hkey, (htakes.others c hkey).mp hmem, hraised, hstate⟩

theorem raised_cleared (htakes : Takes d.table T' key (.normal, .empty) 0) {c : Condition} :
    Raised { d with table := T' } c ↔ c.key ≠ key ∧ d.Raised c := by
  constructor
  · intro hc
    rcases raised_report htakes hc with ⟨_, hnormal⟩ | hother
    · exact absurd hnormal hc.2.2
    · exact hother
  · rintro ⟨hkey, hmem, hraised, hstate⟩
    exact ⟨(htakes.others c hkey).mpr hmem, hraised, hstate⟩

theorem reportNormal_cases (d : Drills K) (locked : Bool) (hkey : key ≠ .empty) :
    (locked = true ∧ d.table.Room key) ∧ (∃ T', Takes d.table T' key (.normal, .empty) 0 ∧
      d.reportNormal locked key = (.ok, { d with table := T' })) ∨
    ¬(locked = true ∧ d.table.Room key) ∧
      ∃ err, err ≠ .ok ∧ d.reportNormal locked key = (err, d) := by
  have hchars : key.chars ≠ [] := by
    intro hnil
    exact hkey (Buf.ext hnil)
  have hfits := key.fits
  have hcheck : checkReport (some key.chars) 0 (some []) 0 = .ok (key, .normal, .empty) := by
    have hlen : ¬keyMax ≤ key.chars.length := by simp only [keyMax] at hfits ⊢; omega
    have hflags : (0 : UInt32) &&& ~~~rebootOnAlarm = 0 := by decide
    simp only [checkReport, Option.getD_some, List.isEmpty_iff, hchars, hlen, hflags, State.ofInt?,
      Buf.print_chars, ne_eq, not_true_eq_false, if_false, ge_iff_le]
    rfl
  exact reportEx_cases d locked hcheck

end Report

-- Whether nothing is outstanding after `flush_pending_clear`.
def Flushes (d : Drills K) (locks : FlushLocks) : Prop :=
  locks.read = true ∧ (d.testPendingClear = .empty ∨
    locks.report = true ∧ d.table.Room d.testPendingClear ∧ locks.forget = true)

-- What a flush can do: nothing, or clear the pending key and perhaps forget it.
theorem flushPendingClear_cases (d : Drills K) (locks : FlushLocks) :
    d.flushPendingClear locks = (false, d) ∧ ¬d.Flushes locks ∨
    d.flushPendingClear locks = (true, d) ∧ d.Flushes locks ∧ d.testPendingClear = .empty ∨
    d.testPendingClear ≠ .empty ∧
      ∃ T', Takes d.table T' d.testPendingClear (.normal, .empty) 0 ∧
        (d.flushPendingClear locks = (false, { d with table := T' }) ∧ ¬d.Flushes locks ∨
        d.flushPendingClear locks = (true, { d with table := T', testPendingClear := .empty }) ∧
          d.Flushes locks) := by
  rw [flushPendingClear]
  by_cases hread : locks.read = true
  · by_cases hempty : d.testPendingClear = .empty
    · refine .inr (.inl ⟨?_, ⟨hread, .inl hempty⟩, hempty⟩)
      simp [hread, hempty]
    · have hdue : d.testPendingClear.isEmpty = false := by
        rw [← Bool.not_eq_true, Buf.isEmpty_iff]
        exact hempty
      simp only [hread, hdue, if_true, Bool.false_eq_true, if_false]
      rcases d.reportNormal_cases locks.report hempty with
        ⟨⟨hlock, hroom⟩, T', htakes, hreport⟩ | ⟨hno, err, herr, hreport⟩
      · refine .inr (.inr ⟨hempty, T', htakes, ?_⟩)
        by_cases hforget : locks.forget = true
        · refine .inr ⟨?_, hread, .inr ⟨hlock, hroom, hforget⟩⟩
          simp [hreport, hforget, forgetPending]
        · refine .inl ⟨by simp [hreport, hforget], ?_⟩
          simp [Flushes, hempty, hforget]
      · refine .inl ⟨?_, ?_⟩
        · rw [hreport]
          cases err <;> first | exact absurd rfl herr | rfl
        · rintro ⟨-, hpending | ⟨hlock, hroom, -⟩⟩
          · exact hempty hpending
          · exact hno ⟨hlock, hroom⟩
  · exact .inl ⟨by simp [hread], by simp [Flushes, hread]⟩

theorem Kept.flush (hkept : d.Kept) (locks : FlushLocks) : (d.flushPendingClear locks).2.Kept := by
  rcases d.flushPendingClear_cases locks with ⟨h, -⟩ | ⟨h, -⟩ | ⟨-, T', htakes, ⟨h, -⟩ | ⟨h, -⟩⟩
  · rwa [h]
  · rwa [h]
  · rw [h]
    exact hkept.report htakes
  · rw [h]
    have hreport := hkept.report htakes
    exact ⟨hreport.armed, hreport.nonempty, hreport.inTable, hreport.flagless⟩

-- The key a flush clears is the one it forgets.
theorem NoOrphan.flush (hno : d.NoOrphan) (locks : FlushLocks) :
    (d.flushPendingClear locks).2.NoOrphan := by
  rcases d.flushPendingClear_cases locks with ⟨h, -⟩ | ⟨h, -⟩ | ⟨-, T', htakes, ⟨h, -⟩ | ⟨h, -⟩⟩
  · rwa [h]
  · rwa [h]
  · rw [h]
    intro c hc
    exact hno c ((raised_cleared htakes).mp hc).2
  · rw [h]
    intro c hc
    obtain ⟨hkey, hc⟩ := (raised_cleared htakes).mp hc
    rcases hno c hc with harmed | hpending
    · exact .inl harmed
    · exact absurd hpending.symm hkey

-- What is left to a transition after a flush that went through.
theorem flush_done (locks : FlushLocks) (h : d.Flushes locks) :
    ∃ d', d.flushPendingClear locks = (true, d') ∧ d'.testPendingClear = .empty ∧
      d'.testArmed = d.testArmed ∧ d'.testKey = d.testKey ∧ d'.raised = d.raised ∧
      ∀ c, c.key ≠ .empty → (d'.Raised c ↔ c.key ≠ d.testPendingClear ∧ d.Raised c) := by
  rcases d.flushPendingClear_cases locks with
    ⟨-, hno⟩ | ⟨hflush, -, hempty⟩ | ⟨-, T', htakes, ⟨-, hno⟩ | ⟨hflush, -⟩⟩
  · exact absurd h hno
  · refine ⟨d, hflush, hempty, rfl, rfl, rfl, ?_⟩
    intro c hc
    simp [hempty, hc]
  · exact absurd h hno
  · exact ⟨_, hflush, rfl, rfl, rfl, rfl, fun c _ => raised_cleared htakes⟩

-- Dropping a key from the pending slot keeps what is named otherwise.
theorem named_forgetPending {key k : Buf keyMax} (hne : k ≠ key) (h : d.Named k) :
    (d.forgetPending key).Named k := by
  rw [forgetPending]
  split
  next hpending =>
    rcases h with harmed | hnamed
    · exact .inl harmed
    · exact absurd (hnamed.symm.trans hpending) hne
  next => exact h

theorem forgetPending_eq (d : Drills K) (key : Buf keyMax) :
    ∃ p, d.forgetPending key = { d with testPendingClear := p } := by
  rw [forgetPending]
  split
  next => exact ⟨_, rfl⟩
  next => exact ⟨d.testPendingClear, rfl⟩

-- The clear of the drill that was replaced: it goes out and is forgotten, or
-- the slot keeps its key.
theorem clearPrevious_sound (locks : TestLocks) {previous : Buf keyMax} (hne : previous ≠ .empty)
    (hkept : d.Kept) (hno : d.NoOrphan) :
    (d.clearPrevious locks previous).Kept ∧ (d.clearPrevious locks previous).NoOrphan := by
  rw [clearPrevious]
  rcases d.reportNormal_cases locks.clear hne with
    ⟨-, T', htakes, hreport⟩ | ⟨-, err, herr, hreport⟩
  · have hkept' := hkept.report htakes
    have hno' : ∀ c, Raised { d with table := T' } c → c.key ≠ previous ∧ d.Named c.key := by
      intro c hc
      obtain ⟨hkey, hc⟩ := (raised_cleared htakes).mp hc
      exact ⟨hkey, hno c hc⟩
    rw [hreport]
    dsimp only
    split
    next =>
      constructor
      · obtain ⟨p, hp⟩ := forgetPending_eq { d with table := T' } previous
        rw [hp]
        exact ⟨hkept'.armed, hkept'.nonempty, hkept'.inTable, hkept'.flagless⟩
      · intro c hc
        obtain ⟨p, hp⟩ := forgetPending_eq { d with table := T' } previous
        rw [hp] at hc
        obtain ⟨hkey, hnamed⟩ := hno' c hc
        exact named_forgetPending hkey hnamed
    next => exact ⟨hkept', fun c hc => (hno' c hc).2⟩
  · rw [hreport]
    cases err with
    | ok => exact absurd rfl herr
    | _ => exact ⟨hkept, hno⟩

section Claim

variable {key : CStr} {state : Int} {message : Option CStr} {ttlMs now : UInt32}

@[simp] theorem claim_table : (d.claim now key state ttlMs).table = d.table := by
  rw [claim]
  cases d.previous key <;> dsimp only <;> split_ifs <;> rfl

@[simp] theorem claim_raised : (d.claim now key state ttlMs).raised = d.raised := by
  rw [claim]
  cases d.previous key <;> dsimp only <;> split_ifs <;> rfl

@[simp] theorem claim_testPendingClear :
    (d.claim now key state ttlMs).testPendingClear =
      (d.previous key).getD d.testPendingClear := by
  rw [claim]
  cases d.previous key <;> dsimp only <;> split_ifs <;> rfl

@[simp] theorem claim_testKey :
    (d.claim now key state ttlMs).testKey =
      if state ≠ 0 then .print key
      else if d.testKey.chars = key then .empty else d.testKey := by
  rw [claim]
  cases d.previous key <;> dsimp only <;> split_ifs <;> rfl

@[simp] theorem claim_testArmed :
    (d.claim now key state ttlMs).testArmed =
      if state ≠ 0 then true else if d.testKey.chars = key then false else d.testArmed := by
  rw [claim]
  cases d.previous key <;> dsimp only <;> split_ifs <;> rfl

theorem print_eq_iff (hfits : key.length < keyMax) {b : Buf keyMax} :
    b = .print key ↔ b.chars = key := by
  have hchars : (Buf.print key : Buf keyMax).chars = key := by
    simp only [Buf.print]
    exact List.take_of_length_le (by omega)
  constructor
  · rintro rfl
    exact hchars
  · intro h
    exact Buf.ext (h.trans hchars.symm)

theorem print_ne_empty (hkey : key ≠ []) : (Buf.print key : Buf keyMax) ≠ .empty := by
  rw [ne_eq, ← Buf.isEmpty_iff, Buf.isEmpty_print key (by decide), List.isEmpty_iff]
  exact hkey

theorem claim_arms (hkey : key ≠ []) (hkept : d.Kept) :
    (d.claim now key state ttlMs).testArmed = true →
      (d.claim now key state ttlMs).testKey ≠ .empty := by
  have hprint := print_ne_empty hkey
  have hold := hkept.armed
  rw [claim_testArmed, claim_testKey]
  split_ifs <;> simp_all

-- The claim moves the name of a replaced drill to the pending slot. Only a
-- request that clears the running drill gives a name up.
theorem named_claim (hfits : key.length < keyMax) (hempty : d.testPendingClear = .empty)
    {k : Buf keyMax} (hk : k ≠ .empty) (hnamed : d.Named k) :
    (d.claim now key state ttlMs).Named k ↔
      ¬(state = 0 ∧ d.testArmed = true ∧ d.testKey = k ∧ d.testKey.chars = key) := by
  obtain ⟨harmed, rfl⟩ : d.testArmed = true ∧ d.testKey = k := by
    rcases hnamed with harmed | hpending
    · exact harmed
    · exact absurd (hpending.symm.trans hempty) hk
  rw [Named, claim_testArmed, claim_testKey, claim_testPendingClear, hempty]
  by_cases hchars : d.testKey.chars = key
  · have hprevious : d.previous key = none := by simp [previous, hchars]
    by_cases hstate : state = 0
    · simp [hstate, hprevious, harmed, hchars, hk.symm]
    · have hprint : Buf.print key = d.testKey := by rw [eq_comm, print_eq_iff hfits, hchars]
      simp [hstate, hprint]
  · have hprevious : d.previous key = some d.testKey := by
      rw [previous, if_pos ⟨harmed, hchars⟩]
    simp [hprevious, hchars]

theorem named_claim_raising (hstate : state ≠ 0) :
    (d.claim now key state ttlMs).Named (.print key) := by
  simp [Named, hstate]

end Claim

-- What `report_test` has checked is what the report asks for.
theorem checkTest_ok {key : Option CStr} {state : Int} {message : Option CStr} {ttlMs : UInt32}
    {k : CStr} (h : checkTest key state message ttlMs = .ok k) :
    k ≠ [] ∧ k.length < keyMax ∧ ∃ shown : Shown, (shown.1 = .normal ↔ state = 0) ∧
      checkReport (some k) state (some (message.getD [])) 0 = .ok (.print k, shown) := by
  cases key with
  | none => cases h
  | some key =>
    simp only [checkTest] at h
    split_ifs at h with hprefix hlen hstate hraising hfits hmessage
    have hkey : key = k := Except.ok.inj h
    subst hkey
    have hne : key ≠ [] := by
      rintro rfl
      exact hlen (List.eq_nil_of_prefix_nil hprefix ▸ rfl)
    obtain ⟨shown, hshown⟩ := Option.ne_none_iff_exists'.mp hstate
    have hzero : shown = .normal ↔ state = 0 := by
      unfold State.ofInt? at hshown
      split at hshown <;> simp_all [eq_comm]
    have hflags : (0 : UInt32) &&& ~~~rebootOnAlarm = 0 := by decide
    refine ⟨hne, by omega, (shown, .print (message.getD [])), hzero, ?_⟩
    simp [checkReport, hne, hflags, hshown, hfits, hmessage]

section Transition

variable {key : CStr} {state : Int} {message : Option CStr} (now ttlMs : UInt32) {shown : Shown}
  (locks : TestLocks)

-- An accepted report: the new drill is named by the claim, the old one by the
-- pending slot until it is cleared.
theorem transition_accepted (hfits : key.length < keyMax) (hkey : key ≠ [])
    (hzero : shown.1 = .normal ↔ state = 0) (hempty : d.testPendingClear = .empty)
    (hkept : d.Kept) (hno : d.NoOrphan) {T' : Table K}
    (htakes : Takes d.table T' (.print key) shown 0) {d' : Drills K}
    (hd' : d' =
      { d.claim now key state ttlMs with
        table := T'
        raised := if state ≠ 0 then d.raised ++ [.print key] else d.raised }) :
    d'.Kept ∧ d'.NoOrphan := by
  have hreport := hkept.report htakes
  subst hd'
  have hraised : ∀ k ∈ (if state ≠ 0 then d.raised ++ [Buf.print key] else d.raised),
      k ∈ d.raised ∨ state ≠ 0 ∧ k = .print key := by
    intro k hk
    split_ifs at hk with hstate
    · simpa [hstate] using hk
    · exact .inl hk
  constructor
  · constructor
    case armed => exact claim_arms hkey hkept
    case nonempty =>
      intro k hk
      rcases hraised k hk with hold | ⟨-, rfl⟩
      · exact hkept.nonempty k hold
      · exact print_ne_empty hkey
    case inTable =>
      intro k hk
      rcases hraised k hk with hold | ⟨-, rfl⟩
      · exact hreport.inTable k hold
      · obtain ⟨c, hc, hck⟩ := htakes.stands
        exact List.mem_map.mpr ⟨c, hc, hck⟩
    case flagless =>
      intro c hc hk
      by_cases hck : c.key = .print key
      · exact (htakes.news c hc hck).2
      · rcases hraised _ hk with hold | ⟨-, hprint⟩
        · exact hreport.flagless c hc hold
        · exact absurd hprint hck
  · rintro c ⟨hc, hk, hstate⟩
    by_cases hck : c.key = .print key
    · have hshown := (htakes.news c hc hck).1
      have hraising : state ≠ 0 := by
        rw [ne_eq, ← hzero, ← hshown]
        exact hstate
      rw [hck]
      exact named_claim_raising hraising
    · have hold : c.key ∈ d.raised := by
        rcases hraised _ hk with hold | ⟨-, hprint⟩
        · exact hold
        · exact absurd hprint hck
      have hnamed := hno c ⟨(htakes.others c hck).mp hc, hold, hstate⟩
      refine (named_claim hfits hempty (hkept.nonempty _ hold) hnamed).mpr ?_
      rintro ⟨-, -, hsame, hchars⟩
      rw [← hsame, print_eq_iff hfits] at hck
      exact hck hchars

-- A refused report: the claim is taken back, unless that fails too.
theorem transition_refused (hfits : key.length < keyMax) (hkey : key ≠ [])
    (hempty : d.testPendingClear = .empty) (hkept : d.Kept) (hno : d.NoOrphan) {d' : Drills K}
    (hd' : d' =
      if locks.rollback then (d.claim now key state ttlMs).rollback d (d.previous key)
      else d.claim now key state ttlMs) :
    d'.Kept ∧ (d'.NoOrphan ↔
      ¬(locks.rollback = false ∧ state = 0 ∧ d.testArmed = true ∧ d.testKey.chars = key ∧
        ∃ c, d.Raised c ∧ c.key = d.testKey)) := by
  cases hrollback : locks.rollback with
  | true =>
    obtain ⟨p, hp⟩ : ∃ p, d' = { d with testPendingClear := p } := by
      rw [hd', hrollback, if_pos rfl, rollback.eq_def]
      cases d.previous key with
      | none => exact ⟨(d.claim now key state ttlMs).testPendingClear, by simp⟩
      | some previous =>
        dsimp only [forgetPending]
        split_ifs
        · exact ⟨.empty, by simp⟩
        · exact ⟨(d.claim now key state ttlMs).testPendingClear, by simp⟩
    subst hp
    refine ⟨⟨hkept.armed, hkept.nonempty, hkept.inTable, hkept.flagless⟩, ?_⟩
    simp only [Bool.true_eq_false, false_and, not_false_eq_true, iff_true]
    intro c hc
    rcases hno c hc with harmed | hpending
    · exact .inl harmed
    · exact absurd (hpending.symm.trans hempty) (hkept.nonempty _ hc.2.1)
  | false =>
    obtain rfl : d' = d.claim now key state ttlMs := by simpa [hrollback] using hd'
    have hsame : ∀ c, (d.claim now key state ttlMs).Raised c ↔ d.Raised c := by
      intro c
      simp [Raised]
    constructor
    · constructor
      case armed => exact claim_arms hkey hkept
      case nonempty => simpa using hkept.nonempty
      case inTable => simpa using hkept.inTable
      case flagless => simpa using hkept.flagless
    · constructor
      · rintro hclaim ⟨-, hstate, harmed, hchars, c, hc, hck⟩
        have hnamed := hclaim c ((hsame c).mpr hc)
        rw [named_claim hfits hempty (hkept.nonempty _ hc.2.1) (hno c hc)] at hnamed
        exact hnamed ⟨hstate, harmed, hck.symm, hchars⟩
      · intro hgood c hc
        rw [hsame] at hc
        rw [named_claim hfits hempty (hkept.nonempty _ hc.2.1) (hno c hc)]
        rintro ⟨hstate, harmed, hck, hchars⟩
        exact hgood ⟨rfl, hstate, harmed, hchars, c, hc, hck.symm⟩

-- A transition that starts with nothing outstanding orphans a drill in one
-- way: its clearing report fails, and so does taking the claim back.
theorem transition_sound (hfits : key.length < keyMax) (hkey : key ≠ [])
    (hzero : shown.1 = .normal ↔ state = 0)
    (hcheck : checkReport (some key) state (some (message.getD [])) 0 = .ok (.print key, shown))
    (hempty : d.testPendingClear = .empty) (hkept : d.Kept) (hno : d.NoOrphan) :
    (d.transition locks now key state message ttlMs).2.Kept ∧
      ((d.transition locks now key state message ttlMs).2.NoOrphan ↔
        ¬(locks.report = false ∧ locks.rollback = false ∧ state = 0 ∧ d.testArmed = true ∧
          d.testKey.chars = key ∧ ∃ c, d.Raised c ∧ c.key = d.testKey)) := by
  rw [transition]
  rcases (d.claim now key state ttlMs).reportEx_cases locks.report hcheck with
    ⟨⟨hlock, hroom⟩, T', htakes, hreport⟩ | ⟨hrefused, err, herr, hreport⟩
  · rw [claim_table] at htakes
    rw [hreport]
    dsimp only
    generalize hd' : ite (state ≠ 0) _ _ = d'
    have hsound : d'.Kept ∧ d'.NoOrphan := by
      refine transition_accepted now ttlMs hfits hkey hzero hempty hkept hno htakes ?_
      rw [← hd']
      split_ifs <;> simp
    have hgood : ¬(locks.report = false ∧ locks.rollback = false ∧ state = 0 ∧
        d.testArmed = true ∧ d.testKey.chars = key ∧ ∃ c, d.Raised c ∧ c.key = d.testKey) := by
      simp [hlock]
    simp only [hgood, not_false_eq_true, iff_true]
    cases hprevious : d.previous key with
    | none => exact hsound
    | some previous =>
      have hne : previous ≠ .empty := by
        rw [Drills.previous] at hprevious
        split_ifs at hprevious with harmed
        rw [← Option.some.inj hprevious]
        exact hkept.armed harmed.1
      exact clearPrevious_sound locks hne hsound.1 hsound.2
  · have hunlocked : d.testKey.chars = key → (∃ c, d.Raised c ∧ c.key = d.testKey) →
        locks.report = false := by
      rintro hchars ⟨c, hc, hck⟩
      by_contra hlock
      rw [Bool.not_eq_false] at hlock
      refine hrefused ⟨hlock, .inl ?_⟩
      rw [claim_table, ← (print_eq_iff hfits).mpr hchars, ← hck]
      exact List.mem_map.mpr ⟨c, hc.1, rfl⟩
    have hsound := fun d' => @transition_refused K d key state now ttlMs locks hfits hkey hempty
      hkept hno d'
    specialize hsound _ rfl
    rw [hreport]
    cases err with
    | ok => exact absurd rfl herr
    | _ =>
      refine ⟨hsound.1, hsound.2.trans (not_congr ?_)⟩
      constructor
      · rintro ⟨hrollback, hstate, harmed, hchars, hc⟩
        exact ⟨hunlocked hchars hc, hrollback, hstate, harmed, hchars, hc⟩
      · rintro ⟨-, h⟩
        exact h

end Transition

-- The call that leaves a drill raised that no slot names: it clears the drill
-- that runs, and neither its report nor its rollback gets the lock.
def Forsakes (d : Drills K) : DrillCall → Prop
  | .reportTest locks _ key state message ttlMs =>
    checkTest key state message ttlMs = .ok d.testKey.chars ∧ state = 0 ∧
      locks.test = true ∧ d.Flushes locks.flush ∧ locks.claim = true ∧
      locks.report = false ∧ locks.rollback = false ∧
      d.testArmed = true ∧ d.testPendingClear ≠ d.testKey ∧ ∃ c, d.Raised c ∧ c.key = d.testKey
  | .testExpire .. => False

theorem reportTest_sound (locks : TestLocks) (now : UInt32) (key : Option CStr) (state : Int)
    (message : Option CStr) (ttlMs : UInt32) (hkept : d.Kept) (hno : d.NoOrphan) :
    (d.reportTest locks now key state message ttlMs).2.Kept ∧
      ((d.reportTest locks now key state message ttlMs).2.NoOrphan ↔
        ¬d.Forsakes (.reportTest locks now key state message ttlMs)) := by
  have hflushed := And.intro (hkept.flush locks.flush) (hno.flush locks.flush)
  rw [reportTest]
  cases hcheck : checkTest key state message ttlMs with
  | error err => simp [Forsakes, hcheck, hkept, hno]
  | ok k =>
    obtain ⟨hk, hfits, shown, hzero, hreport⟩ := checkTest_ok hcheck
    cases htest : locks.test with
    | false => simp [Forsakes, htest, hkept, hno]
    | true =>
      by_cases hflush : d.Flushes locks.flush
      · obtain ⟨d', hd', hempty, harmed, hkey, hraised, hsame⟩ := flush_done locks.flush hflush
        rw [hd'] at hflushed
        rw [hd']
        dsimp only
        cases hclaim : locks.claim with
        | false => simp [Forsakes, hclaim, hflushed]
        | true =>
          have hsound := transition_sound now ttlMs locks hfits hk hzero hreport hempty
            hflushed.1 hflushed.2
          have hraised : (∃ c, d'.Raised c ∧ c.key = d.testKey) ↔
              d.testPendingClear ≠ d.testKey ∧ ∃ c, d.Raised c ∧ c.key = d.testKey := by
            constructor
            · rintro ⟨c, hc, hck⟩
              have hne := hflushed.1.nonempty _ hc.2.1
              obtain ⟨hother, hc⟩ := (hsame c hne).mp hc
              exact ⟨fun h => hother (hck.trans h.symm), c, hc, hck⟩
            · rintro ⟨hother, c, hc, hck⟩
              have hne := hkept.nonempty _ hc.2.1
              exact ⟨c, (hsame c hne).mpr ⟨fun h => hother (h.symm.trans hck), hc⟩, hck⟩
          refine ⟨hsound.1, hsound.2.trans (not_congr ?_)⟩
          rw [harmed, hkey, hraised, Forsakes, hcheck, htest, hclaim, Except.ok.injEq]
          constructor
          · rintro ⟨hlock, hrollback, hstate, hon, rfl, hlost⟩
            exact ⟨rfl, hstate, rfl, hflush, rfl, hlock, hrollback, hon, hlost⟩
          · rintro ⟨rfl, hstate, -, -, -, hlock, hrollback, hon, hlost⟩
            exact ⟨hlock, hrollback, hstate, hon, rfl, hlost⟩
      · have hstopped : (d.flushPendingClear locks.flush).1 = false := by
          rcases d.flushPendingClear_cases locks.flush with
            ⟨h, -⟩ | ⟨-, hyes, -⟩ | ⟨-, T', -, ⟨h, -⟩ | ⟨-, hyes⟩⟩
          · rw [h]
          · exact absurd hyes hflush
          · rw [h]
          · exact absurd hyes hflush
        obtain ⟨d', hd'⟩ : ∃ d', d.flushPendingClear locks.flush = (false, d') :=
          ⟨_, Prod.ext hstopped rfl⟩
        rw [hd'] at hflushed ⊢
        simp [Forsakes, hflush, hflushed]

-- An expiry pass gives a name up only once its condition is NORMAL.
theorem testExpire_sound (locks : ExpireLocks) (now : UInt32) (hkept : d.Kept)
    (hno : d.NoOrphan) :
    (d.testExpire locks now).2.Kept ∧ (d.testExpire locks now).2.NoOrphan := by
  have hflushed := And.intro (hkept.flush locks.flush) (hno.flush locks.flush)
  rw [testExpire]
  cases locks.test with
  | false => exact ⟨hkept, hno⟩
  | true =>
    generalize (d.flushPendingClear locks.flush).2 = d' at hflushed
    obtain ⟨hkept', hno'⟩ := hflushed
    simp only [if_true]
    split_ifs with hread hdue
    · have hne : d'.testKey ≠ .empty := hkept'.armed hdue.1
      rcases d'.reportNormal_cases locks.report hne with
        ⟨-, T', htakes, hreport⟩ | ⟨-, err, herr, hreport⟩
      · have hreported := hkept'.report htakes
        have hcleared : ∀ c, Raised { d' with table := T' } c →
            c.key ≠ d'.testKey ∧ d'.Named c.key := by
          intro c hc
          obtain ⟨hck, hc⟩ := (raised_cleared htakes).mp hc
          exact ⟨hck, hno' c hc⟩
        rw [hreport]
        dsimp only
        split_ifs with hforget
        · refine ⟨⟨nofun, hreported.nonempty, hreported.inTable, hreported.flagless⟩, ?_⟩
          intro c hc
          obtain ⟨hck, harmed | hpending⟩ := hcleared c hc
          · exact absurd harmed.2.symm hck
          · exact .inr hpending
        · exact ⟨hreported, fun c hc => (hcleared c hc).2⟩
      · rw [hreport]
        cases err with
        | ok => exact absurd rfl herr
        | _ => exact ⟨hkept', hno'⟩
    · exact ⟨hkept', hno'⟩
    · exact ⟨hkept', hno'⟩

-- After a pass that gets its locks, what is still raised is the drill that is
-- armed, and it is not due yet.
def Expires (d : Drills K) : Prop :=
  ∀ now, ∀ c, (d.testExpire .all now).2.Raised c →
    (d.testExpire .all now).2.testArmed = true ∧ (d.testExpire .all now).2.testKey = c.key ∧
      ahead now (d.testExpire .all now).2.testDeadlineMs < 0

theorem raised_room (hkept : d.Kept) {c : Condition} (hc : d.Raised c) : d.table.Room c.key :=
  .inl (hkept.inTable _ hc.2.1)

-- With every lock a flush leaves nothing raised that only the pending slot names.
theorem flush_all (hkept : d.Kept) (hno : d.NoOrphan) {c : Condition}
    (hc : (d.flushPendingClear .all).2.Raised c) :
    (d.flushPendingClear .all).2.testArmed = true ∧
      (d.flushPendingClear .all).2.testKey = c.key := by
  have hne := (hkept.flush .all).nonempty _ hc.2.1
  rcases hno.flush .all c hc with harmed | hpending
  · exact harmed
  · exfalso
    rcases d.flushPendingClear_cases .all with
      ⟨h, hno'⟩ | ⟨h, -, hempty⟩ | ⟨-, T', htakes, ⟨h, -⟩ | ⟨h, -⟩⟩
    · rw [h] at hc hpending
      have hroom := raised_room hkept hc
      rw [← hpending] at hroom
      exact hno' ⟨rfl, .inr ⟨rfl, hroom, rfl⟩⟩
    · rw [h, hempty] at hpending
      exact hne hpending.symm
    · rw [h] at hc hpending
      exact ((raised_cleared htakes).mp hc).1 hpending.symm
    · rw [h] at hpending
      exact hne hpending.symm

theorem expires_of_noOrphan (hkept : d.Kept) (hno : d.NoOrphan) : d.Expires := by
  intro now c
  have hkept' := hkept.flush .all
  have harmed : ∀ c, (d.flushPendingClear .all).2.Raised c → _ := fun c => flush_all hkept hno
  rw [testExpire]
  simp only [ExpireLocks.all, if_true]
  generalize (d.flushPendingClear .all).2 = d' at hkept' harmed
  split_ifs with hdue
  · rcases d'.reportNormal_cases true (hkept'.armed hdue.1) with
      ⟨-, T', htakes, hreport⟩ | ⟨hrefused, err, herr, hreport⟩
    · have hcleared : ∀ c, ¬Raised { d' with table := T' } c := by
        intro c hc
        obtain ⟨hck, hc⟩ := (raised_cleared htakes).mp hc
        exact hck (harmed c hc).2.symm
      rw [hreport]
      simp only [hdue.1, and_self, if_true]
      intro hc
      exact absurd hc (hcleared c)
    · have hclear : ∀ c, ¬d'.Raised c := by
        intro c hc
        refine hrefused ⟨rfl, ?_⟩
        rw [(harmed c hc).2]
        exact raised_room hkept' hc
      rw [hreport]
      cases err with
      | ok => exact absurd rfl herr
      | _ =>
        intro hc
        exact absurd hc (hclear c)
  · intro hc
    obtain ⟨hon, hkey⟩ := harmed c hc
    have hne := hkept'.armed hon
    refine ⟨hon, hkey, ?_⟩
    rw [ne_eq, ← Buf.isEmpty_iff] at hne
    by_contra hlate
    exact hdue ⟨hon, by simpa using hlate, hne⟩

-- The drills are in order: what is raised is named, a pass clears what is due,
-- and none of it asks for a reboot.
structure InOrder (d : Drills K) : Prop where
  noOrphan : d.NoOrphan
  expires : d.Expires
  flagless : ∀ c, d.Raised c → c.flags = 0

theorem inOrder_iff (hkept : d.Kept) : d.InOrder ↔ d.NoOrphan := by
  constructor
  · exact InOrder.noOrphan
  · intro hno
    exact ⟨hno, expires_of_noOrphan hkept hno, fun c hc => hkept.flagless c hc.1 hc.2.1⟩

theorem step_sound (call : DrillCall) (hkept : d.Kept) (hno : d.NoOrphan) :
    (d.step call).Kept ∧ ((d.step call).NoOrphan ↔ ¬d.Forsakes call) := by
  cases call with
  | reportTest locks now key state message ttlMs =>
    exact reportTest_sound locks now key state message ttlMs hkept hno
  | testExpire locks now =>
    obtain ⟨hkept', hno'⟩ := testExpire_sound locks now hkept hno
    exact ⟨hkept', iff_of_true hno' not_false⟩

theorem start_kept (T : Table K) : (start T).Kept :=
  ⟨nofun, nofun, nofun, nofun⟩

theorem start_noOrphan (T : Table K) : (start T).NoOrphan := by
  rintro c ⟨-, hraised, -⟩
  cases hraised

-- The drills stay in order along a run exactly when no call of it forsakes one.
theorem drills_in_order_iff (T : Table K) (calls : List DrillCall) :
    Always step InOrder (start T) calls ↔
      Along step (fun d call => ¬d.Forsakes call) (start T) calls := by
  have hstart : (start T).InOrder := (inOrder_iff (start_kept T)).mpr (start_noOrphan T)
  apply always_iff_along (I := Kept)
  · intro d call hkept horder
    exact (step_sound call hkept horder.noOrphan).1
  · intro d call hkept horder
    obtain ⟨hkept', hiff⟩ := step_sound call hkept horder.noOrphan
    rw [inOrder_iff hkept', hiff]
  · exact start_kept T
  · exact hstart

-- A drill is raised. The call that is to clear it gets the lock neither for its
-- report nor for its rollback, and no later pass comes to the key.
def lostDrill : List DrillCall :=
  [.reportTest .all 0 (some (lit "test.bilge")) 2 none 1000,
    .reportTest { TestLocks.all with report := false, rollback := false } 10
      (some (lit "test.bilge")) 0 none 0]

theorem drill_orphaned_by_failed_rollback :
    ¬∀ (K : Kconfig) (T : Table K) (calls : List DrillCall),
      Always step InOrder (start T) calls := by
  intro h
  have hlast := (h .default .empty lostDrill).last.noOrphan
    ⟨.print (lit "test.bilge"), .alarm, .empty, 0⟩
  simp only [Raised, Named] at hlast
  exact absurd hlast (by decide)

end Drills

end Espos.Health
