import Espos.Lib.Run
import Espos.Sk.Meta.Legs

-- No declared path is forgotten.

namespace Espos.Sk.Meta

open Espos.Text
open Espos.Run

theorem mem_of_mem_modify {α : Type} {l : List α} {i : Nat} {f : α → α} {x : α}
    (h : x ∈ l.modify i f) : x ∈ l ∨ ∃ y ∈ l, x = f y := by
  obtain ⟨j, hj⟩ := List.mem_iff_getElem?.mp h
  rcases of_getElem?_modify hj with ⟨_, y, hy, rfl⟩ | ⟨_, hx⟩
  · exact .inr ⟨y, List.mem_of_getElem? hy, rfl⟩
  · exact .inl (List.mem_of_getElem? hx)

namespace Table

-- A path that is not reconciled has the table dirty.
def Flagged (t : Table) : Prop :=
  ∀ e ∈ t.entries, e.reconciled = false → t.dirty = true

variable {t : Table}

theorem flagged_of_dirty (h : t.dirty = true) : t.Flagged :=
  fun _ _ _ => h

theorem Flagged.declare (h : t.Flagged) (cap : Nat) (path : Buf PATH_MAX) (metaJson : CStr)
    (periodMs : UInt32) : (t.declare cap path metaJson periodMs).1.Flagged := by
  simp only [Table.declare]
  split
  · split
    · exact h
    · exact flagged_of_dirty rfl
  · split
    · exact h
    · exact flagged_of_dirty rfl

theorem flagged_connected (t : Table) : t.connected.Flagged := by
  intro e he _
  have hmem : e ∈ t.entries.map _ := he
  have hne : t.entries ≠ [] := by
    rintro hnil
    rw [hnil] at hmem
    cases hmem
  simpa [Table.connected] using hne

theorem Flagged.legDone (h : t.Flagged) (i : Nat) (gen : UInt32) (step : Step) :
    (t.legDone i gen step).Flagged := by
  simp only [Table.legDone]
  split
  · intro e he hopen
    rcases mem_of_mem_modify he with hmem | ⟨y, hy, rfl⟩
    · exact h e hmem hopen
    · split at hopen
      · cases hopen
      · exact h y hy hopen
  · split
    · exact h
    · exact h

theorem Flagged.sent (h : t.Flagged) (i : Nat) (gen conn : UInt32) (text : CStr) :
    (t.sent i gen conn text).Flagged := by
  intro e he hopen
  rcases mem_of_mem_modify he with hmem | ⟨y, hy, rfl⟩
  · exact h e hmem hopen
  · exact h y hy hopen

theorem flagged_roundEnd (t : Table) (nowMs delayMs : UInt32) :
    (t.roundEnd nowMs delayMs).1.Flagged := by
  simp only [Table.roundEnd]
  split
  · exact flagged_of_dirty rfl
  · rename_i hany
    intro e he hopen
    exact absurd (List.any_eq_true.mpr ⟨e, he, by simp [hopen]⟩) hany

theorem wait_ne (hdirty : t.dirty = true) (nowMs : UInt32) : t.wait true nowMs ≠ 0xffffffff := by
  simp only [wait, hdirty]
  rw [if_neg (by simp)]
  split
  · decide
  · rename_i hlate
    intro hmax
    rw [UInt32.toUInt32_toInt32] at hmax
    rw [hmax] at hlate
    exact hlate (Or.inr (by decide))

-- The path has not been reconciled.
def Open (t : Table) (p : Nat) : Prop :=
  ∃ e, t.entries[p]? = some e ∧ e.reconciled = false

theorem lt_of_open {p : Nat} (h : t.Open p) : p < t.entries.length := by
  obtain ⟨e, he, _⟩ := h
  exact (List.getElem?_eq_some_iff.mp he).1

theorem open_of_modify {entries : List Entry} {i p : Nat} {f : Entry → Entry} {e : Entry}
    (hf : ∀ e, (f e).reconciled = false → e.reconciled = false)
    (he : (entries.modify i f)[p]? = some e) (hopen : e.reconciled = false) :
    ∃ e, entries[p]? = some e ∧ e.reconciled = false := by
  rcases of_getElem?_modify he with ⟨_, y, hy, rfl⟩ | ⟨_, hsame⟩
  · exact ⟨y, hy, hf y hopen⟩
  · exact ⟨e, hsame, hopen⟩

theorem open_of_sent {i p : Nat} {gen conn : UInt32} {text : CStr}
    (h : (t.sent i gen conn text).Open p) : t.Open p := by
  obtain ⟨e, he, hopen⟩ := h
  simp only [sent] at he
  refine open_of_modify ?_ he hopen
  exact fun _ h => h

theorem open_of_legDone {i p : Nat} {gen : UInt32} {step : Step}
    (h : (t.legDone i gen step).Open p) : t.Open p := by
  obtain ⟨e, he, hopen⟩ := h
  simp only [legDone] at he
  split at he
  · refine open_of_modify ?_ he hopen
    intro e h
    split at h
    · cases h
    · exact h
  · split at he
    · exact ⟨e, he, hopen⟩
    · exact ⟨e, he, hopen⟩

-- Where the next round starts.
def startOf (t : Table) : Nat :=
  if t.next < t.entries.length then t.next else 0

-- How far along a round a path is.
def distance (t : Table) (p : Nat) : Nat :=
  if t.startOf ≤ p then p - t.startOf else p + t.entries.length - t.startOf

theorem startOf_lt (h : 0 < t.entries.length) : t.startOf < t.entries.length := by
  rw [startOf]
  split
  · assumption
  · exact h

theorem distance_cases (t : Table) (p : Nat) :
    (t.startOf ≤ p ∧ t.distance p = p - t.startOf) ∨
      (p < t.startOf ∧ t.distance p = p + t.entries.length - t.startOf) := by
  rw [distance]
  split <;> omega

theorem distance_lt {p : Nat} (h : p < t.entries.length) : t.distance p < t.entries.length := by
  have hstart := startOf_lt (show 0 < t.entries.length by omega)
  have hdist := t.distance_cases p
  omega

theorem index_cases {k : Nat} (h : k < t.entries.length) :
    (t.startOf + k < t.entries.length ∧ t.index t.entries.length k = t.startOf + k) ∨
      (t.entries.length ≤ t.startOf + k ∧
        t.index t.entries.length k = t.startOf + k - t.entries.length) := by
  have hstart := startOf_lt (show 0 < t.entries.length by omega)
  have hindex : t.index t.entries.length k = (t.startOf + k) % t.entries.length := rfl
  rw [hindex]
  by_cases hwrap : t.startOf + k < t.entries.length
  · exact Or.inl ⟨hwrap, Nat.mod_eq_of_lt hwrap⟩
  · right
    rw [Nat.mod_eq_sub_mod (by omega), Nat.mod_eq_of_lt (by omega)]
    omega

theorem index_eq_iff {k p : Nat} (hk : k < t.entries.length) (hp : p < t.entries.length) :
    t.index t.entries.length k = p ↔ k = t.distance p := by
  have hstart := startOf_lt (show 0 < t.entries.length by omega)
  have hdist := t.distance_cases p
  have hindex := index_cases hk
  omega

-- The place in a round goes by the length and where it starts.
theorem distance_congr {t' : Table} (hnext : t'.next = t.next)
    (hlength : t'.entries.length = t.entries.length) (p : Nat) : t'.distance p = t.distance p := by
  have hstart : t'.startOf = t.startOf := by
    rw [startOf, startOf, hnext, hlength]
  rw [distance, distance, hstart, hlength]

-- A round that stops at its leg `k` brings the others nearer by the legs it made.
theorem distance_legDone {k p : Nat} {step : Step} (gen : UInt32)
    (hstop : step = .unauthorized ∨ step = .backOff) (hp : p < t.entries.length)
    (hk : k < t.distance p) :
    (t.legDone (t.index t.entries.length k) gen step).distance p + (k + 1) = t.distance p := by
  have hlt := distance_lt hp
  have hstart := startOf_lt (show 0 < t.entries.length by omega)
  have hindex := index_cases (show k < t.entries.length by omega)
  have hdist := t.distance_cases p
  have hdist' := (t.legDone (t.index t.entries.length k) gen step).distance_cases p
  have hstart' : (t.legDone (t.index t.entries.length k) gen step).startOf =
      if t.index t.entries.length k + 1 < t.entries.length then t.index t.entries.length k + 1
      else 0 := by
    rw [startOf, length_legDone, next_legDone, if_pos hstop]
  rw [length_legDone] at hdist'
  split at hstart' <;> omega

end Table

namespace Client

variable {V : Type} {J : Cjson V} {cap : Nat} {c : Client}

theorem flagged_step (h : c.table.Flagged) (e : Event) : (c.step J cap e).table.Flagged := by
  cases e with
  | declare path metaJson periodMs => exact h.declare cap path metaJson periodMs
  | connected => exact c.table.flagged_connected
  | proceed a =>
    change (c.proceed J a).table.Flagged
    rcases c.table_proceed a with hsame | ⟨k, leg, _, hsent⟩ | ⟨k, leg, handed, step, _, hdone⟩ |
      ⟨stop, _, hend⟩
    · rw [hsame]
      exact h
    · rw [hsent]
      exact h.sent _ _ _ _
    · rw [hdone]
      exact h.legDone _ _ _
    · rw [hend]
      exact Table.flagged_roundEnd _ _ _

-- Rounds with nothing in between

theorem open_of_proceed {p : Nat} (a : Input) (h : (c.proceed J a).table.Open p) :
    c.table.Open p := by
  rcases c.table_proceed a with hsame | ⟨k, leg, _, hsent⟩ | ⟨k, leg, handed, step, _, hdone⟩ |
    ⟨stop, _, hend⟩
  · rw [hsame] at h
    exact h
  · rw [hsent] at h
    exact Table.open_of_sent h
  · rw [hdone] at h
    exact Table.open_of_legDone h
  · rw [hend, Table.Open, Table.entries_roundEnd] at h
    exact h

theorem length_proceed (c : Client) (a : Input) :
    (c.proceed J a).table.entries.length = c.table.entries.length := by
  rcases c.table_proceed a with hsame | ⟨k, leg, _, hsent⟩ | ⟨k, leg, handed, step, _, hdone⟩ |
    ⟨stop, _, hend⟩
  · rw [hsame]
  · rw [hsent, Table.length_sent]
  · rw [hdone, Table.length_legDone]
  · rw [hend, Table.entries_roundEnd]

theorem mem_tried_proceed {p : Nat} (a : Input) (h : p ∈ c.tried) :
    p ∈ (c.proceed J a).tried := by
  cases hpc : c.pc with
  | scan k =>
    simp only [proceed, hpc]
    split
    · simp only [look]
      split
      · exact h
      · split
        · exact h
        · exact List.mem_cons_of_mem _ h
    · exact h
  | idle => simpa [proceed, hpc, start] using h
  | get k leg => simpa [proceed, hpc] using h
  | check k leg => simpa [proceed, hpc] using h
  | put k leg => simpa [proceed, hpc] using h
  | sent k leg => simpa [proceed, hpc] using h
  | close k leg handed step => simpa [proceed, hpc, close] using h
  | finish stop => simpa [proceed, hpc, finish] using h

-- The rounds that found a server and a token.
def served (c : Client) : Nat :=
  c.rounds.count true

-- The leg `k` of a round is about another path, before `p`.
def Underway (p : Nat) (c : Client) (k : Nat) (leg : Leg) : Prop :=
  c.n = c.table.entries.length ∧ leg.i = c.table.index c.table.entries.length k ∧
    k < c.table.distance p ∧ c.table.distance p + c.served ≤ c.table.entries.length

-- A path that has had no leg is nearer with every round.
def Behind (p : Nat) (c : Client) : Prop :=
  match c.pc with
  | .idle => c.table.distance p + c.served < c.table.entries.length
  | .finish _ => c.table.distance p + c.served < c.table.entries.length
  | .scan k =>
    c.n = c.table.entries.length ∧ k ≤ c.table.distance p ∧
      c.table.distance p + c.served ≤ c.table.entries.length
  | .get k leg => c.Underway p k leg
  | .check k leg => c.Underway p k leg
  | .put k leg => c.Underway p k leg
  | .sent k leg => c.Underway p k leg
  | .close k leg _ _ => c.Underway p k leg

-- The head of the loop passes over what is reconciled and begins a leg for
-- anything else, so it does not get beyond `p`.
theorem behind_scan {p k : Nat} (a : Input) (hpc : c.pc = .scan k) (hopen : c.table.Open p)
    (htried : p ∉ (c.proceed J a).tried) (h : Behind p c) : Behind p (c.proceed J a) := by
  have hp := Table.lt_of_open hopen
  have hlt := Table.distance_lt hp
  obtain ⟨e, he, hrec⟩ := hopen
  simp only [Behind, hpc] at h
  obtain ⟨hn, hk, hsum⟩ := h
  have hkn : k < c.n := by omega
  have hiff := Table.index_eq_iff (show k < c.table.entries.length by omega) hp
  have hindex := Table.index_cases (show k < c.table.entries.length by omega)
  have hstart := Table.startOf_lt (show 0 < c.table.entries.length by omega)
  have hi : c.table.index c.table.entries.length k < c.table.entries.length := by omega
  obtain ⟨e', he'⟩ : ∃ e', c.table.entries[c.table.index c.table.entries.length k]? = some e' :=
    ⟨_, List.getElem?_eq_getElem hi⟩
  have hstep : c.proceed J a = c.look a k := by simp only [proceed, hpc, if_pos hkn]
  rw [hstep] at htried ⊢
  simp only [look, hn, he'] at htried ⊢
  by_cases hrec' : e'.reconciled = true
  · have hne : k ≠ c.table.distance p := by
      intro heq
      rw [hiff.mpr heq, he] at he'
      obtain rfl := Option.some.inj he'
      rw [hrec] at hrec'
      cases hrec'
    have hnext : k + 1 ≤ c.table.distance p := by omega
    rw [if_pos hrec']
    exact ⟨rfl, hnext, hsum⟩
  · rw [if_neg hrec'] at htried ⊢
    have hne : k ≠ c.table.distance p := by
      intro heq
      exact htried (List.mem_cons.mpr (Or.inl (hiff.mpr heq).symm))
    have hbefore : k < c.table.distance p := by omega
    cases a.mem with
    | true => exact ⟨rfl, rfl, hbefore, hsum⟩
    | false => exact ⟨rfl, rfl, hbefore, hsum⟩

-- A leg that stops the round has the next one start behind it.
theorem behind_close {p k : Nat} {leg : Leg} {handed : Bool} {step : Step} (a : Input)
    (hpc : c.pc = .close k leg handed step) (hp : p < c.table.entries.length) (h : Behind p c) :
    Behind p (c.proceed J a) := by
  simp only [Behind, hpc] at h
  obtain ⟨hn, hi, hk, hsum⟩ := h
  simp only [proceed, hpc, close]
  by_cases hstop : step = .unauthorized ∨ step = .backOff
  · have hdist := Table.distance_legDone leg.gen hstop hp hk
    rw [← hi] at hdist
    simp only [if_pos hstop, Behind, Table.length_legDone, served] at hsum ⊢
    omega
  · have hnext := Table.next_legDone c.table leg.i leg.gen step
    rw [if_neg hstop] at hnext
    have hdist := Table.distance_congr hnext (Table.length_legDone _ _ _ _) p
    simp only [if_neg hstop, Behind, Table.length_legDone, hdist]
    exact ⟨hn, by omega, hsum⟩

theorem behind_proceed {p : Nat} (a : Input) (hopen : c.table.Open p)
    (htried : p ∉ (c.proceed J a).tried) (h : Behind p c) : Behind p (c.proceed J a) := by
  have hp := Table.lt_of_open hopen
  have hlt := Table.distance_lt hp
  cases hpc : c.pc with
  | idle =>
    simp only [Behind, hpc] at h
    simp only [proceed, hpc, start]
    cases hreach : a.reachable with
    | true =>
      simp only [Behind, if_true, served, List.count_cons_self]
      exact ⟨trivial, by omega, by simp only [served] at h; omega⟩
    | false => simpa [Behind, served] using h
  | scan k => exact behind_scan a hpc hopen htried h
  | get k leg =>
    simp only [Behind, hpc] at h
    simp only [proceed, hpc, ofGet]
    split <;> exact h
  | check k leg =>
    simp only [Behind, hpc] at h
    simp only [proceed, hpc]
    split <;> exact h
  | put k leg =>
    simp only [Behind, hpc] at h
    simp only [proceed, hpc, ofPut]
    split <;> exact h
  | sent k leg =>
    simp only [Behind, hpc] at h
    obtain ⟨hn, hi, hk, hsum⟩ := h
    have hdist := Table.distance_congr (c.table.next_sent leg.i leg.gen c.conn leg.text)
      (c.table.length_sent leg.i leg.gen c.conn leg.text) p
    simp only [proceed, hpc, Behind, Underway, Table.length_sent, hdist]
    exact ⟨hn, hi, hk, hsum⟩
  | close k leg handed step => exact behind_close a hpc hp h
  | finish stop =>
    simp only [Behind, hpc] at h
    simp only [proceed, hpc, finish]
    split
    · exact h
    · have hdist := Table.distance_congr (Table.next_roundEnd c.table a.nowMs a.delayMs)
        (congrArg List.length (Table.entries_roundEnd c.table a.nowMs a.delayMs)) p
      simp only [Behind, Table.entries_roundEnd, hdist]
      exact h

-- The round goes on, and neither a declaration nor a connect comes in between.
def rounding {V : Type} (J : Cjson V) (c : Client) (inputs : List Input) : Client :=
  run (fun c a => c.proceed J a) c inputs

-- From here on, the legs and the rounds are counted anew.
def watched (c : Client) : Client :=
  { c with tried := [], rounds := [] }

theorem length_rounding (c : Client) (inputs : List Input) :
    (c.rounding J inputs).table.entries.length = c.table.entries.length := by
  refine run_invariant (P := fun c' : Client => c'.table.entries.length = c.table.entries.length)
    ?_ rfl inputs
  intro c' a h
  rw [length_proceed, h]

theorem behind_rounding (hidle : c.pc = .idle) {p : Nat} (inputs : List Input)
    (hopen : (c.watched.rounding J inputs).table.Open p)
    (htried : p ∉ (c.watched.rounding J inputs).tried) :
    Behind p (c.watched.rounding J inputs) := by
  have hinv : ∀ c : Client, ∀ a, (c.table.Open p → p ∉ c.tried → Behind p c) →
      (c.proceed J a).table.Open p → p ∉ (c.proceed J a).tried → Behind p (c.proceed J a) := by
    intro c a h hopen htried
    have hopen' := open_of_proceed a hopen
    exact behind_proceed a hopen' htried (h hopen' fun hmem => htried (mem_tried_proceed a hmem))
  refine run_invariant (P := fun c => c.table.Open p → p ∉ c.tried → Behind p c) hinv ?_ inputs
    hopen htried
  intro hstart _
  have hlt := Table.distance_lt (Table.lt_of_open hstart)
  have hpc : c.watched.pc = .idle := hidle
  simp only [Behind, hpc]
  exact hlt

end Client

-- An unreconciled path keeps the table dirty, whatever happens in whatever
-- order, and has a leg within as many rounds as there are paths.
theorem no_path_forgotten {V : Type} (J : Cjson V) (cap : Nat) (es : List Client.Event) :
    let c := run (Client.step J cap) Client.fresh es
    (∀ e ∈ c.table.entries, e.reconciled = false →
      c.table.dirty = true ∧ ∀ nowMs, c.table.wait true nowMs ≠ 0xffffffff) ∧
    (c.pc = .idle → ∀ inputs, (c.watched.rounding J inputs).pc = .idle →
      c.table.entries.length ≤ (c.watched.rounding J inputs).served →
      ∀ p, (c.watched.rounding J inputs).table.Open p → p ∈ (c.watched.rounding J inputs).tried) := by
  intro c
  have hflagged : c.table.Flagged :=
    run_invariant (P := fun c : Client => c.table.Flagged) (fun _ e h => Client.flagged_step h e)
      (fun _ he => by cases he) es
  refine ⟨?_, ?_⟩
  · intro e he hopen
    have hdirty := hflagged e he hopen
    exact ⟨hdirty, Table.wait_ne hdirty⟩
  · intro hidle inputs hend hrounds p hopen
    by_contra htried
    have hbehind := Client.behind_rounding hidle inputs hopen htried
    have hlength := c.watched.length_rounding (J := J) inputs
    have hsame : c.watched.table = c.table := rfl
    rw [hsame] at hlength
    simp only [Client.Behind, hend] at hbehind
    omega

-- A declaration, and rounds that find no server to ask about it.
def depth : Client.Event :=
  .declare (.print (lit "environment.depth.belowKeel")) (lit "\x7b\"units\":\"m\"\x7d") 1000

def unreachable : Input :=
  ⟨false, true, 0, [], false, 0, 0⟩

-- There is one path, and one round is made without a leg.
theorem round_without_server :
    let J : Cjson Unit := ⟨fun _ => none, fun _ _ => true⟩
    let c := (run (Client.step J 32) Client.fresh [depth]).watched
    let c' := c.rounding J [unreachable, unreachable]
    c.pc = .idle ∧ c'.pc = .idle ∧ c.table.entries.length ≤ c'.rounds.length ∧
      c'.table.Open 0 ∧ 0 ∉ c'.tried := by
  refine ⟨rfl, rfl, by decide, ⟨_, rfl, rfl⟩, by decide⟩

def speed : Client.Event :=
  .declare (.print (lit "navigation.speedOverGround")) (lit "\x7b\"units\":\"m/s\"\x7d") 1000

def noJson : Cjson Unit :=
  ⟨fun _ => none, fun _ _ => true⟩

def silent : Input :=
  ⟨true, true, 0, [], false, 0, 0⟩

def asked (steps : Nat) : Client :=
  (run (Client.step noJson 32) Client.fresh [depth, speed]).watched.rounding noJson
    (List.replicate steps silent)

-- With a server that does not answer, a round ends with its first leg, and the next
-- one goes on with the other path.
theorem no_path_forgotten_at_slow_server :
    (asked 5).tried = [0] ∧ ∀ p < 2, p ∈ (asked 10).tried := by
  obtain ⟨-, hlegs⟩ := no_path_forgotten noJson 32 [depth, speed]
  have hall := hlegs (by decide +kernel) (List.replicate 10 silent) (by decide +kernel)
    (by decide +kernel)
  refine ⟨by decide +kernel, fun p hp => hall p ?_⟩
  have hopen : ∀ p < 2, ∃ e ∈ (asked 10).table.entries[p]?, e.reconciled = false := by
    decide +kernel
  exact hopen p hp

end Espos.Sk.Meta
