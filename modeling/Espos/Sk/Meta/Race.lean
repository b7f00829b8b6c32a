import Espos.Lib.Run
import Espos.Sk.Meta.Tracks

-- A text that a later declaration replaced is not taken for the server's own.

namespace Espos.Sk.Meta

open Espos.Text
open Espos.Run

namespace World

variable {V : Type} {J : Cjson V} {cap : Nat} {before : Buf PATH_MAX → Option CStr} {w : World}

-- Steps of the round

theorem leg_tracked (h : Tracks before w) (a : Input) {leg : Leg}
    (hleg : (w.client.proceed J a).pc.leg = some leg) :
    (w.client.proceed J a).table.paths[leg.i]? = some leg.path ∧
      leg.text ∈ (w.proceed J a).since := by
  rw [Client.paths_proceed]
  rcases Client.leg_proceed a hleg with ⟨hsame, hscan⟩ | ⟨k, e, hscan, he, hpath⟩
  · obtain ⟨hpath, htext⟩ := h.leg leg hsame
    refine ⟨hpath, ?_⟩
    simp only [proceed]
    exact htext
  · refine ⟨?_, ?_⟩
    · rw [Table.paths, List.getElem?_map, he, hpath]
      rfl
    · simp [proceed, hscan, hleg]

-- The server has only ever been sent texts of declared paths.
theorem server_proceed (w : World) (a : Input) {path : Buf PATH_MAX}
    (hne : ∀ leg, w.client.pc.leg = some leg → leg.path ≠ path) :
    (w.proceed J a).server path = w.server path := by
  cases hpc : w.client.pc with
  | put k leg =>
    have hleg : w.client.pc.leg = some leg := by rw [hpc]; rfl
    simp only [proceed, hpc]
    split
    · exact Function.update_of_ne (hne leg hleg).symm _ _
    · rfl
  | idle => simp [proceed, hpc]
  | scan k => simp [proceed, hpc]
  | get k leg => simp [proceed, hpc]
  | check k leg => simp [proceed, hpc]
  | sent k leg => simp [proceed, hpc]
  | close k leg handed step => simp [proceed, hpc]
  | finish stop => simp [proceed, hpc]

theorem index_eq_of_path (h : Tracks before w) {i j : Nat} {e : Entry} {path : Buf PATH_MAX}
    (hi : w.client.table.paths[i]? = some path) (he : w.client.table.entries[j]? = some e)
    (hpath : e.path = path) : i = j := by
  have hj : w.client.table.paths[j]? = some path := by
    rw [Table.paths, List.getElem?_map, he, ← hpath]
    rfl
  obtain ⟨hlt, _⟩ := List.getElem?_eq_some_iff.mp hi
  exact (List.getElem?_inj hlt h.nodup).mp (hi.trans hj.symm)

theorem path_eq (h : Tracks before w) {leg : Leg} (hleg : w.client.pc.leg = some leg) {e : Entry}
    (he : w.client.table.entries[leg.i]? = some e) : e.path = leg.path := by
  have hpath := (h.leg leg hleg).1
  rw [Table.paths, List.getElem?_map, he] at hpath
  exact Option.some.inj hpath

theorem afterGet_done {status : Int} {seen : Seen} (h : afterGet status seen = .done) :
    status = 200 ∧ seen ≠ .none ∧ seen ≠ .ours := by
  simp only [afterGet] at h
  split at h
  · cases h
  · split at h
    · cases h
    · split at h
      · cases h
      · rename_i hnot
        split at h
        · rename_i hok
          refine ⟨hok, fun hseen => hnot ?_, fun hseen => hnot ?_⟩
          · exact Or.inr ⟨hok, Or.inl hseen⟩
          · exact Or.inr ⟨hok, Or.inr hseen⟩
        · cases h

-- Meta that holds the replaced text is known for the device's own.
theorem seenOf_replaced {resp text : CStr} (h : holds J resp text = true) (status : Int) :
    seenOf J status resp false (some text) = .none ∨
      seenOf J status resp false (some text) = .ours := by
  simp only [seenOf]
  split
  · cases hparse : J.parse resp with
    | none => simp [holds, hparse] at h
    | some v =>
      cases v with
      | none => simp
      | some fields =>
        cases fields with
        | nil => simp
        | cons f fields => simp [h]
  · exact Or.inl rfl

-- A GET never finds meta of the server's own.
theorem get_not_done {a : Input} {k : Nat} {leg : Leg} (hpc : w.client.pc = .get k leg)
    (hserved : w.Served J (.proceed a)) (hcareful : w.Careful cap (.proceed a))
    (hsafe : w.server leg.path = none ∨ w.server leg.path = leg.replaced) :
    afterGet a.status (seenOf J a.status a.resp a.truncated leg.replaced) ≠ .done := by
  intro hdone
  obtain ⟨hok, hnotNone, hnotOurs⟩ := afterGet_done hdone
  simp only [Served, hpc] at hserved
  simp only [Careful, hpc] at hcareful
  have hreply := hserved.2 hok
  cases hserver : w.server leg.path with
  | none =>
    rw [hserver] at hreply
    exact hnotNone hreply
  | some text =>
    rw [hserver] at hreply
    have hwhole : a.truncated = false := hcareful hok (by simp [hserver])
    have hreplaced : leg.replaced = some text := by
      rcases hsafe with hempty | hsame
      · rw [hserver] at hempty
        cases hempty
      · rw [← hsame, hserver]
    rw [hwhole, hreplaced] at hnotNone hnotOurs
    rcases seenOf_replaced (hreply hwhole) a.status with hseen | hseen
    · exact hnotNone hseen
    · exact hnotOurs hseen

theorem quiet_close {k : Nat} {leg : Leg} {step : Step} (hstep : step ≠ .done) :
    (Pc.close k leg false step).Quiet where
  get := by simp
  own := by
    intro k' leg' heq
    simp only [Pc.close.injEq] at heq
    exact hstep heq.2.2.2
  posted := rfl

theorem owes_get (h : Tracks before w) {a : Input} {k : Nat} {leg : Leg}
    (hpc : w.client.pc = .get k leg) (hserved : w.Served J (.proceed a))
    (hcareful : w.Careful cap (.proceed a)) {j : Nat} {e : Entry}
    (he : w.client.table.entries[j]? = some e) (howes : w.Owes j e) :
    (w.proceed J a).Owes j e := by
  have hsafe : w.Safe e := howes.safe (by simp [hpc, Pc.posted])
  have hsafe' : (w.proceed J a).Safe e := by
    simpa [Safe, proceed, hpc] using hsafe
  have hpc' : (w.proceed J a).client.pc = Client.ofGet k leg
      (afterGet a.status (seenOf J a.status a.resp a.truncated leg.replaced)) := by
    simp [proceed, Client.proceed, hpc]
  by_cases hi : leg.i = j
  · subst hi
    have hpath := path_eq h (by rw [hpc]; rfl) he
    have hnot := get_not_done hpc hserved hcareful (by
      rw [← hpath, howes.asked k leg hpc rfl]
      exact hsafe)
    apply Owes.of_quiet _ hsafe'
    rw [hpc', Client.ofGet]
    split
    · exact ⟨by simp, by simp, rfl⟩
    · exact quiet_close hnot
  · apply Owes.of_apart _ hsafe'
    intro leg' hleg'
    rw [hpc', Client.ofGet] at hleg'
    split at hleg'
    · obtain rfl := Option.some.inj hleg'
      exact hi
    · obtain rfl := Option.some.inj hleg'
      exact hi

theorem owes_scan {a : Input} {k : Nat} (hpc : w.client.pc = .scan k) {j : Nat} {e : Entry}
    (he : w.client.table.entries[j]? = some e) (howes : w.Owes j e) :
    (w.proceed J a).Owes j e := by
  have hsafe : w.Safe e := howes.safe (by simp [hpc, Pc.posted])
  have hsafe' : (w.proceed J a).Safe e := by
    simpa [Safe, proceed, hpc] using hsafe
  have hquiet : ∀ pc : Pc, (w.client.proceed J a).pc = pc → pc.Quiet →
      (w.proceed J a).Owes j e := by
    rintro pc rfl hquiet
    exact .of_quiet hquiet hsafe'
  by_cases hk : k < w.client.n
  · have hstep : w.client.proceed J a = w.client.look a k := by
      simp only [Client.proceed, hpc, if_pos hk]
    cases hy : w.client.table.entries[w.client.table.index w.client.n k]? with
    | none =>
      refine hquiet (.scan k) ?_ ⟨by simp, by simp, rfl⟩
      simp only [hstep, Client.look, hy, hpc]
    | some y =>
      by_cases hrec : y.reconciled = true
      · refine hquiet (.scan (k + 1)) ?_ ⟨by simp, by simp, rfl⟩
        simp only [hstep, Client.look, hy, if_pos hrec]
      · cases hmem : a.mem with
        | false =>
          refine hquiet (.close k ⟨w.client.table.index w.client.n k, y.path, y.metaJson, y.gen,
            y.stale⟩ false .backOff) ?_ (quiet_close (by simp))
          simp only [hstep, Client.look, hy, if_neg hrec, hmem, Bool.false_eq_true, if_false]
        | true =>
          have hpc' : (w.proceed J a).client.pc =
              .get k ⟨w.client.table.index w.client.n k, y.path, y.metaJson, y.gen, y.stale⟩ := by
            simp only [proceed, hstep, Client.look, hy, if_neg hrec, hmem, if_true]
          refine ⟨?_, by simp [hpc'], by simp [hpc', Pc.posted], by simp [hpc'],
            fun _ => hsafe'⟩
          intro k' leg hget hi
          rw [hpc'] at hget
          cases hget
          rw [show w.client.table.index w.client.n k = j from hi, he] at hy
          rw [Option.some.inj hy]
  · refine hquiet (.finish .done) ?_ ⟨by simp, by simp, rfl⟩
    simp only [Client.proceed, hpc, if_neg hk]

theorem owes_put (h : Tracks before w) {a : Input} {k : Nat} {leg : Leg}
    (hpc : w.client.pc = .put k leg) {j : Nat} {e : Entry}
    (he : w.client.table.entries[j]? = some e) (howes : w.Owes j e) :
    (w.proceed J a).Owes j e := by
  have hleg : w.client.pc.leg = some leg := by
    rw [hpc]
    rfl
  have hsafe : w.Safe e := howes.safe (by simp [hpc, Pc.posted])
  by_cases hdone : afterPut a.status = .done
  · have hpc' : (w.proceed J a).client.pc = .sent k leg := by
      simp [proceed, Client.proceed, hpc, Client.ofPut, hdone]
    have hserver : (w.proceed J a).server = Function.update w.server leg.path (some leg.text) := by
      simp [proceed, hpc, hdone]
    by_cases hi : leg.i = j
    · subst hi
      have hpath := path_eq h hleg he
      refine ⟨by simp [hpc'], by simp [hpc'], ?_, by simp [hpc'], ?_⟩
      · intro leg' hposted _
        rw [hpc'] at hposted
        obtain rfl := Option.some.inj hposted
        rw [hserver, hpath, Function.update_self]
      · intro hne
        exact absurd rfl (hne leg (by rw [hpc']; rfl))
    · apply Owes.of_apart
      · intro leg' hleg'
        rw [hpc'] at hleg'
        obtain rfl := Option.some.inj hleg'
        exact hi
      · rw [Safe, hserver, Function.update_of_ne]
        · exact hsafe
        · intro hpath
          exact hi (index_eq_of_path h (h.leg leg hleg).1 he hpath)
  · apply Owes.of_quiet
    · have hpc' : (w.proceed J a).client.pc = .close k leg false (afterPut a.status) := by
        simp [proceed, Client.proceed, hpc, Client.ofPut, hdone]
      rw [hpc']
      exact quiet_close hdone
    · simpa [Safe, proceed, hpc, hdone] using hsafe

theorem owes_sent (h : Tracks before w) {a : Input} {k : Nat} {leg : Leg}
    (hpc : w.client.pc = .sent k leg) {j : Nat} {e : Entry}
    (he : (w.client.proceed J a).table.entries[j]? = some e)
    (howes : ∀ y, w.client.table.entries[j]? = some y → y.path = e.path → w.Owes j y) :
    (w.proceed J a).Owes j e := by
  have hpc' : (w.proceed J a).client.pc = .close k leg true .done := by
    simp [proceed, Client.proceed, hpc]
  have hserver : (w.proceed J a).server = w.server := by
    simp [proceed, hpc]
  have hconn : w.client.conn = w.client.table.conn := by
    simpa [hpc] using h.conn
  simp only [Client.proceed, hpc, Table.sent] at he
  rcases of_getElem?_modify he with ⟨hi, y, hy, rfl⟩ | ⟨hi, hold⟩
  · have hold := howes y hy rfl
    refine ⟨by simp [hpc'], by simp [hpc'], ?_, ?_, ?_⟩
    · intro leg' hposted _
      rw [hpc'] at hposted
      obtain rfl := Option.some.inj hposted
      rw [hserver]
      exact hold.posted leg (by rw [hpc]; rfl) hi
    · intro k' leg' hclose _
      rw [hpc'] at hclose
      cases hclose
      by_cases hgen : y.gen = leg.gen
      · exact Or.inr ⟨by simp [hgen], hgen⟩
      · exact Or.inl (by simp [hgen, hconn])
    · intro hne
      exact absurd hi (hne leg (by rw [hpc']; rfl))
  · apply Owes.of_apart
    · intro leg' hleg'
      rw [hpc'] at hleg'
      obtain rfl := Option.some.inj hleg'
      exact hi
    · rw [Safe, hserver]
      apply (howes e hold rfl).safe
      intro leg' hposted
      rw [hpc] at hposted
      obtain rfl := Option.some.inj hposted
      exact hi

theorem owes_close {a : Input} {k : Nat} {leg : Leg} {handed : Bool} {step : Step}
    (hpc : w.client.pc = .close k leg handed step) {j : Nat} {e : Entry}
    (he : (w.client.proceed J a).table.entries[j]? = some e)
    (hunmarked : w.marks = some leg → leg.i ≠ j)
    (howes : ∀ y, w.client.table.entries[j]? = some y → y.path = e.path → w.Owes j y) :
    (w.proceed J a).Owes j e := by
  have hserver : (w.proceed J a).server = w.server := by
    simp [proceed, hpc]
  have hquiet : (w.proceed J a).client.pc.Quiet := by
    simp only [proceed, Client.proceed, hpc, Client.close]
    split <;> exact ⟨by simp, by simp, rfl⟩
  apply Owes.of_quiet hquiet
  rw [Safe, hserver]
  simp only [Client.proceed, hpc, Client.close, Table.legDone] at he
  by_cases hdone : step = .done
  · subst hdone
    simp only [if_true] at he
    rcases of_getElem?_modify he with ⟨hi, y, hy, hey⟩ | ⟨hi, hsame⟩
    · have hgen : y.gen ≠ leg.gen := by
        intro hgen
        apply hunmarked _ hi
        simp [marks, hpc, Client.outdated, hi, hy, hgen]
      rw [if_neg hgen] at hey
      subst hey
      have hold := howes y hy rfl
      cases handed with
      | false => exact absurd hi (hold.own k leg hpc)
      | true =>
        right
        rw [hold.posted leg (by rw [hpc]; rfl) hi]
        rcases hold.recorded k leg hpc hi with hstale | ⟨_, hsame⟩
        · exact hstale.symm
        · exact absurd hsame hgen
    · apply (howes e hsame rfl).safe
      intro leg' hposted
      have hleg := Pc.leg_of_posted hposted
      rw [hpc] at hleg
      obtain rfl := Option.some.inj hleg
      exact hi
  · have hsame : w.client.table.entries[j]? = some e := by
      rw [if_neg hdone] at he
      split at he <;> exact he
    apply (howes e hsame rfl).safe
    intro leg' hposted
    rw [hpc] at hposted
    cases handed with
    | false => cases hposted
    | true => cases step <;> simp_all [Pc.posted]

theorem kept_proceed (h : Tracks before w) (a : Input) (hserved : w.Served J (.proceed a))
    (hcareful : w.Careful cap (.proceed a)) {j : Nat} {e : Entry}
    (he : (w.client.proceed J a).table.entries[j]? = some e) (hnone : before e.path = none)
    (hunmarked : e.path ∉ (w.proceed J a).marked) : (w.proceed J a).Owes j e := by
  have hbefore : e.path ∉ w.marked := fun hmem => hunmarked (List.mem_append_right _ hmem)
  have howes : ∀ y, w.client.table.entries[j]? = some y → y.path = e.path → w.Owes j y := by
    intro y hy hpath
    exact h.kept j y hy (hpath ▸ hnone) (hpath ▸ hbefore)
  have hquiet : w.client.table.entries[j]? = some e → w.client.pc.posted = none →
      (w.proceed J a).server = w.server → (w.client.proceed J a).pc.Quiet →
      (w.proceed J a).Owes j e := by
    intro he' hposted hserver hquiet
    apply Owes.of_quiet hquiet
    rw [Safe, hserver]
    exact (howes e he' rfl).safe (by simp [hposted])
  cases hpc : w.client.pc with
  | idle =>
    rw [Client.entries_proceed a (by simp [hpc]) (by simp [hpc])] at he
    refine hquiet he (by rw [hpc]; rfl) (by simp [proceed, hpc]) ?_
    simp only [Client.proceed, hpc, Client.start]
    split <;> exact ⟨by simp, by simp, rfl⟩
  | scan k =>
    rw [Client.entries_proceed a (by simp [hpc]) (by simp [hpc])] at he
    exact owes_scan hpc he (howes e he rfl)
  | get k leg =>
    rw [Client.entries_proceed a (by simp [hpc]) (by simp [hpc])] at he
    exact owes_get h hpc hserved hcareful he (howes e he rfl)
  | check k leg =>
    rw [Client.entries_proceed a (by simp [hpc]) (by simp [hpc])] at he
    refine hquiet he (by rw [hpc]; rfl) (by simp [proceed, hpc]) ?_
    simp only [Client.proceed, hpc]
    split
    · exact quiet_close (by simp)
    · exact ⟨by simp, by simp, rfl⟩
  | put k leg =>
    rw [Client.entries_proceed a (by simp [hpc]) (by simp [hpc])] at he
    exact owes_put h hpc he (howes e he rfl)
  | sent k leg => exact owes_sent h hpc he howes
  | close k leg handed step =>
    refine owes_close hpc he ?_ howes
    rintro hmarks rfl
    apply hunmarked
    have hpath : e.path = leg.path := by
      have htracked := (h.leg leg (by rw [hpc]; rfl)).1
      rw [← Client.paths_proceed (J := J) w.client a, Table.paths, List.getElem?_map, he]
        at htracked
      exact Option.some.inj htracked
    simp [proceed, hmarks, hpath]
  | finish stop =>
    rw [Client.entries_proceed a (by simp [hpc]) (by simp [hpc])] at he
    refine hquiet he (by rw [hpc]; rfl) (by simp [proceed, hpc]) ?_
    simp only [Client.proceed, hpc, Client.finish]
    exact ⟨by simp, by simp, rfl⟩

theorem tracks_proceed (h : Tracks before w) (a : Input) (hserved : w.Served J (.proceed a))
    (hcareful : w.Careful cap (.proceed a)) : Tracks before (w.proceed J a) where
  nodup := by
    change (w.client.proceed J a).table.paths.Nodup
    rw [Client.paths_proceed]
    exact h.nodup
  leg := fun _ hleg => leg_tracked h a hleg
  conn := Client.conn_proceed a h.conn
  undeclared := by
    intro path hnone hnot
    change path ∉ (w.client.proceed J a).table.paths at hnot
    rw [Client.paths_proceed] at hnot
    rw [server_proceed]
    · exact h.undeclared path hnone hnot
    · rintro leg hleg rfl
      exact hnot (List.mem_of_getElem? (h.leg leg hleg).1)
  kept := fun _ _ he hnone hunmarked => kept_proceed h a hserved hcareful he hnone hunmarked

theorem tracks_step (h : Tracks before w) (e : Client.Event) (hserved : w.Served J e)
    (hcareful : w.Careful cap e) : Tracks before (w.step J cap e) := by
  cases e with
  | declare path metaJson periodMs => exact tracks_declare h path metaJson periodMs hcareful
  | connected => exact absurd hserved id
  | proceed a => exact tracks_proceed h a hserved hcareful

theorem close_of_marks {leg : Leg} (h : w.marks = some leg) :
    ∃ k handed, w.client.pc = .close k leg handed .done := by
  simp only [marks] at h
  split at h
  · rename_i k leg' handed hpc
    split at h
    · cases h
    · obtain rfl := Option.some.inj h
      exact ⟨k, handed, hpc⟩
  · cases h

theorem current_of_tracks (h : Tracks before w) (e : Client.Event) : w.Current before e := by
  cases e with
  | declare path metaJson periodMs => trivial
  | connected => trivial
  | proceed a =>
    intro leg hmarks hnone hunmarked
    obtain ⟨k, handed, hpc⟩ := close_of_marks hmarks
    obtain ⟨hpath, htext⟩ := h.leg leg (by rw [hpc]; rfl)
    rw [Table.paths, List.getElem?_map] at hpath
    obtain ⟨e, he, hpath⟩ := Option.map_eq_some_iff.mp hpath
    rw [← hpath] at hnone hunmarked ⊢
    have howes := h.kept leg.i e he hnone hunmarked
    cases handed with
    | false => exact absurd rfl (howes.own k leg hpc)
    | true => exact ⟨leg.text, htext, howes.posted leg (by rw [hpc]; rfl) rfl⟩

end World

-- On one connection, the first mark of a path without meta on the server finds
-- a text there that was current as the leg began, or later.
theorem replaced_text_not_kept {V : Type} (J : Cjson V) (cap : Nat) (history : List Client.Event)
    (hidle : (run (Client.step J cap) Client.fresh history).pc = .idle)
    (server : Buf PATH_MAX → Option CStr) (es : List Client.Event)
    (hserved : Along (World.step J cap) (World.Served J)
      (World.connect (run (Client.step J cap) Client.fresh history) server) es)
    (hcareful : Along (World.step J cap) (World.Careful cap)
      (World.connect (run (Client.step J cap) Client.fresh history) server) es) :
    Along (World.step J cap) (World.Current server)
      (World.connect (run (Client.step J cap) Client.fresh history) server) es := by
  have hfresh : Client.fresh.table.paths.Nodup := List.nodup_nil
  have hnodup : (run (Client.step J cap) Client.fresh history).table.paths.Nodup :=
    run_invariant (P := fun c : Client => c.table.paths.Nodup)
      (fun _ e h => Client.nodup_step h e) hfresh history
  refine along_of_invariant (P := World.Tracks server) ?_ ?_
    (World.tracks_connect hidle hnodup server) (along_and hserved hcareful)
  · rintro w e htracks ⟨hserved, hcareful⟩
    exact World.tracks_step htracks e hserved hcareful
  · rintro w e htracks _
    exact World.current_of_tracks htracks e

-- The objects with a single field `units`.
def unitsJson : Cjson CStr where
  parse := fun text =>
    if (lit "\x7b\"units\":\"").isPrefixOf text then
      some (some [(lit "units", (text.drop 10).takeWhile (· ≠ '"'))])
    else none
  compare := fun a b => a == b

def metres : CStr :=
  lit "\x7b\"units\":\"m\"\x7d"

def feet : CStr :=
  lit "\x7b\"units\":\"ft\"\x7d"

def declareDepth (metaJson : CStr) : Client.Event :=
  .declare (.print (lit "environment.depth.belowKeel")) metaJson 0

def answered (status : Int) (resp : CStr) : Client.Event :=
  .proceed ⟨true, true, status, resp, false, 0, 0⟩

-- A round up to the PUT of the depth, which the server takes.
def depthSent : List Client.Event :=
  [declareDepth metres, answered 0 [], answered 0 [], answered 404 [], answered 0 []]

def noMeta : Buf PATH_MAX → Option CStr :=
  fun _ => none

-- The depth is declared in feet between the record of the PUT and the end of the
-- leg. The next round takes the metres for the server's own.
theorem metres_kept :
    let es := depthSent ++ [answered 200 [], answered 0 [], declareDepth feet, answered 0 [],
      answered 0 [], answered 0 [], answered 0 [], answered 0 [], answered 200 metres, answered 0 []]
    Along (World.step unitsJson 32) (World.Served unitsJson) (World.connect .fresh noMeta) es ∧
      ¬ Along (World.step unitsJson 32) (World.Current noMeta) (World.connect .fresh noMeta) es := by
  intro es
  refine ⟨?_, ?_⟩
  · refine ⟨trivial, trivial, trivial, ⟨by decide, fun h => absurd h (by decide)⟩, trivial, ?_⟩
    refine ⟨show (0 : Int) < 200 by decide, trivial, trivial, trivial, trivial, trivial, trivial,
      trivial, ⟨by decide, fun _ _ => ?_⟩, trivial, trivial⟩
    decide +kernel
  · rintro ⟨_, _, _, _, _, _, _, _, _, _, _, _, _, _, hlast, _⟩
    have hcurrent := hlast _ rfl rfl (by decide +kernel)
    revert hcurrent
    decide +kernel

-- The same declaration while the PUT runs: the next round sends the feet.
theorem replaced_text_not_kept_in_feet :
    Along (World.step unitsJson 32) (World.Current noMeta) (World.connect .fresh noMeta)
      (depthSent ++ [declareDepth feet, answered 200 [], answered 0 [], answered 0 [],
        answered 0 [], answered 0 [], answered 0 [], answered 0 [], answered 200 metres,
        answered 0 [], answered 200 [], answered 0 [], answered 0 []]) := by
  apply replaced_text_not_kept unitsJson 32 [] rfl noMeta
  · refine ⟨trivial, trivial, trivial, ⟨by decide, fun h => absurd h (by decide)⟩, trivial, ?_⟩
    refine ⟨trivial, show (0 : Int) < 200 by decide, trivial, trivial, trivial, trivial, trivial,
      trivial, ⟨by decide, fun _ _ => ?_⟩, trivial, show (0 : Int) < 200 by decide, trivial, trivial,
      trivial⟩
    decide +kernel
  · refine ⟨trivial, trivial, trivial, fun h => absurd h (by decide), trivial, ?_⟩
    exact ⟨trivial, trivial, trivial, trivial, trivial, trivial, trivial, trivial, fun _ _ => rfl,
      trivial, trivial, trivial, trivial, trivial⟩

end Espos.Sk.Meta
