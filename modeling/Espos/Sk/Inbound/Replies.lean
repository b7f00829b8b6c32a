import Espos.Sk.Inbound.Routing

-- PUT requests and deltas are not confused, and every PUT is answered: what of
-- that holds, and when.

namespace Espos.Sk.Inbound

open Espos.Text

variable {c : Cjson} {E : Env}

-- Nothing the answer needs fails.
structure Moment.Sends (m : Moment) : Prop where
  malloc : m.malloc = true
  connected : m.link.connected = true
  room : m.link.raw.length < MAX_RAW

structure Env.Unfailing (E : Env) : Prop where
  arena : E.arena = true
  keep : ∀ k, E.keep k = true
  found : ∀ k, (E.found k).Sends
  after : E.after.Sends

theorem putRespond_ok_iff {m : Moment} (hsends : m.Sends) {r : Reply} :
    putRespond m r = .ok ↔ r.requestId ≠ [] := by
  rw [putRespond]
  by_cases hid : r.requestId = []
  · simp [hid]
  · obtain ⟨frame, hframe, -⟩ := putResponseFrame_eq hid m.printed r.state r.statusCode r.message
    have hfull : ¬ MAX_RAW ≤ m.link.raw.length := Nat.not_le_of_lt hsends.room
    simp [hid, hsends.malloc, hframe, State.sendRaw, hsends.connected, hfull]

theorem queued_of_sends {m : Moment} (hsends : m.Sends) {r : Reply} (hid : r.requestId ≠ []) :
    queued m r = [r] := by
  rw [queued, if_pos ((putRespond_ok_iff hsends).mpr hid)]

-- Without a request id there is nothing to answer to.
theorem queued_of_empty (m : Moment) {r : Reply} (hid : r.requestId = []) : queued m r = [] := by
  rw [queued, if_neg]
  rw [putRespond, if_pos hid]
  decide

@[simp] theorem requestId_replyTo (errToName : Int32 → CStr) (m : Moment) (path id : CStr) :
    (replyTo errToName m path id).requestId = id := by
  rw [replyTo]
  cases handlerOf m.handlers path with
  | none => rfl
  | some h => simp only [outcomeReply, apply_ite Reply.requestId, ite_self]

def hasMember (root : Option Json) (name : CStr) : Prop :=
  (getObjectItem root name).isSome = true

variable (c E)

-- A frame with a `put` calls no subscriber, and a delta no handler.
structure Apart (json : CStr) (w : Inbox) : Prop where
  put : hasMember (c.parse json) (lit "put") → (handleFrame c E json w).1.calls = w.calls
  delta : infoOf c (c.parse json) = .delta → (handleFrame c E json w).1.handled = w.handled

-- A PUT with a request id is answered once for each of its items, or once with
-- 400 when it has none, and the answers quote its id.
def Answered (json : CStr) (w : Inbox) : Prop :=
  ∀ requestId, infoOf c (c.parse json) = .put requestId →
    hasMember (c.parse json) (lit "requestId") →
    ∃ replies, (handleFrame c E json w).1.replies = w.replies ++ replies ∧
      (∀ r ∈ replies,
        getObjectItem (c.parse json) (lit "requestId") = some (.string r.requestId)) ∧
      if putOffers (c.parse json) = [] then replies.map Reply.statusCode = [400]
      else replies.length = (putOffers (c.parse json)).length

-- The items without a request id, which go to the subscribers, are for none of
-- them.
def Unheard (json : CStr) : Prop :=
  ∀ p ∈ (offers c (c.parse json)).zipIdx, p.1.base.requestId = none →
    E.arena = true → E.keep p.2 = true → matching E p.2 p.1 = []

-- The request id of a PUT, if it has any, is a string that is not empty.
def Named (json : CStr) : Prop :=
  ∀ requestId, infoOf c (c.parse json) = .put requestId →
    hasMember (c.parse json) (lit "requestId") → ∃ id, requestId = some id ∧ id ≠ []

variable {c E}

theorem delta_not_handled {json : CStr} (hdelta : infoOf c (c.parse json) = .delta) (w : Inbox) :
    (handleFrame c E json w).1.handled = w.handled := by
  have hoffers : offers c (c.parse json) = deltaOffers (c.parse json) := by
    rw [offers, hdelta]
  have hnone : ((kept c E json).flatMap fun p => handledOf p.1 p.2) = [] := by
    rw [flatMap_kept, hoffers, List.flatMap_eq_nil_iff]
    intro p hp
    have hid := requestId_deltaOffers (List.fst_mem_of_mem_zipIdx hp)
    simp [handledOf, hid]
  rw [handled_handleFrame, hnone, List.append_nil]

theorem callsOf_eq_nil_iff {k : Nat} {o : Offer} (text : CStr) :
    callsOf (E.found k) (o.update text) = [] ↔ (o.base.requestId = none → matching E k o = []) := by
  cases hid : o.base.requestId with
  | none => simp [callsOf_update hid, MAX_HITS]
  | some id => simp [callsOf, hid]

theorem calls_eq_iff_unheard (json : CStr) (w : Inbox) :
    (handleFrame c E json w).1.calls = w.calls ↔ Unheard c E json := by
  rw [calls_handleFrame, List.append_right_eq_self, flatMap_kept, List.flatMap_eq_nil_iff]
  refine forall₂_congr fun p _ => ?_
  by_cases hkeep : (E.arena && E.keep p.2) = true
  · rw [if_pos hkeep, callsOf_eq_nil_iff]
    rw [Bool.and_eq_true] at hkeep
    simp [hkeep.1, hkeep.2]
  · rw [if_neg hkeep]
    rw [Bool.and_eq_true] at hkeep
    exact ⟨fun _ _ harena hitem => absurd ⟨harena, hitem⟩ hkeep, fun _ => rfl⟩

theorem apart_iff (json : CStr) (w : Inbox) :
    Apart c E json w ↔ (hasMember (c.parse json) (lit "put") → Unheard c E json) := by
  constructor
  · exact fun h hput => (calls_eq_iff_unheard json w).mp (h.put hput)
  · exact fun h => ⟨fun hput => (calls_eq_iff_unheard json w).mpr (h hput),
      fun hdelta => delta_not_handled hdelta w⟩

theorem replies_close (info : Info) (w : Inbox) :
    (close E info w).1.replies = w.replies ++
      match info with
      | .put (some id) => if w.answered then [] else queued E.after (unusable id)
      | _ => [] := by
  cases info with
  | put requestId =>
    cases requestId with
    | none => simp [close]
    | some id =>
      rw [close]
      cases w.answered with
      | true => simp
      | false => simp [Inbox.replies_respond]
  | _ => simp [close]

-- A PUT with an item is answered when the loop is over.
theorem answered_run (hkeep : ∀ k, E.keep k = true) {os : List Offer} (hne : os ≠ [])
    (hid : ∀ o ∈ os, o.base.requestId.isSome = true) (w : Inbox) :
    (runOffers c E.keep (route E) 0 os w).answered = true := by
  cases os with
  | nil => exact absurd rfl hne
  | cons o os =>
    rw [runOffers, if_pos (hkeep 0)]
    refine runOffers_keeps (P := fun w : Inbox => w.answered = true) ?_ _ _ ?_
    · intro k u s hs
      rw [route, (routeItem_adds _ _ _ _).answered, hs, Bool.true_or]
    · rw [route, (routeItem_adds _ _ _ _).answered, Offer.requestId_update,
        hid o List.mem_cons_self, Bool.or_true]

theorem offers_of_put {requestId : Option CStr} {root : Option Json}
    (hinfo : infoOf c root = .put requestId) : offers c root = putOffers root := by
  rw [offers, hinfo]

-- What a PUT is answered with when there is memory for its items.
theorem replies_handleFrame (harena : E.arena = true) (hkeep : ∀ k, E.keep k = true)
    {json : CStr} {id : CStr} (hinfo : infoOf c (c.parse json) = .put (some id)) (w : Inbox) :
    (handleFrame c E json w).1.replies = w.replies ++
      if putOffers (c.parse json) = [] then queued E.after (unusable id)
      else (putOffers (c.parse json)).zipIdx.flatMap fun p =>
        queued (E.found p.2) (replyTo E.errToName (E.found p.2) p.1.base.path id) := by
  have hid : ∀ o ∈ putOffers (c.parse json), o.base.requestId = some id := by
    intro o ho
    rw [requestId_putOffers ho, ← requestId_of_put hinfo]
  have hinfo' : ∀ s : Inbox, (frameParse c E.arena E.keep (route E) json s).1 =
      .put (some id) := by
    intro s
    rw [harena, frameParse_info, hinfo]
  rw [handleFrame, replies_close, hinfo',
    log_frameParse Inbox.replies (repliesOf E.errToName)
      (fun _ _ _ => (routeItem_adds _ _ _ _).replies),
    flatMap_kept, offers_of_put hinfo, List.append_assoc]
  simp only [harena, frameParse_state (route_goes E), offers_of_put hinfo]
  by_cases hnone : putOffers (c.parse json) = []
  · simp [hnone, runOffers]
  · have hanswered := answered_run (c := c) hkeep hnone (fun o ho => by rw [hid o ho]; rfl)
      { w with frames := w.frames + 1, answered := false }
    rw [hanswered, if_pos rfl, if_neg hnone, List.append_nil]
    refine congrArg (w.replies ++ ·) (List.flatMap_congr fun p hp => ?_)
    rw [hkeep, Bool.and_true, if_pos rfl, repliesOf, Offer.requestId_update,
      hid p.1 (List.fst_mem_of_mem_zipIdx hp), Offer.path_update]

theorem replies_unnamed (harena : E.arena = true) {json : CStr}
    (hinfo : infoOf c (c.parse json) = .put none) (w : Inbox) :
    (handleFrame c E json w).1.replies = w.replies := by
  have hnone : ((kept c E json).flatMap fun p => repliesOf E.errToName p.1 p.2) = [] := by
    rw [flatMap_kept, offers_of_put hinfo, List.flatMap_eq_nil_iff]
    intro p hp
    have hid := requestId_putOffers (List.fst_mem_of_mem_zipIdx hp)
    rw [← requestId_of_put hinfo] at hid
    simp [repliesOf, hid]
  rw [handleFrame, replies_close,
    log_frameParse Inbox.replies (repliesOf E.errToName)
      (fun _ _ _ => (routeItem_adds _ _ _ _).replies), hnone, harena, frameParse_info, hinfo,
    List.append_nil, List.append_nil]

theorem replies_empty_id (harena : E.arena = true) (hkeep : ∀ k, E.keep k = true) {json : CStr}
    (hinfo : infoOf c (c.parse json) = .put (some [])) (w : Inbox) :
    (handleFrame c E json w).1.replies = w.replies := by
  rw [replies_handleFrame harena hkeep hinfo, List.append_right_eq_self]
  by_cases hnone : putOffers (c.parse json) = []
  · rw [if_pos hnone, queued_of_empty _ rfl]
  · rw [if_neg hnone, List.flatMap_eq_nil_iff]
    exact fun p _ => queued_of_empty _ (requestId_replyTo _ _ _ _)

theorem replies_named (hE : E.Unfailing) {json : CStr} {id : CStr} (hid : id ≠ [])
    (hinfo : infoOf c (c.parse json) = .put (some id)) (w : Inbox) :
    (handleFrame c E json w).1.replies = w.replies ++
      if putOffers (c.parse json) = [] then [unusable id]
      else (putOffers (c.parse json)).zipIdx.map fun p =>
        replyTo E.errToName (E.found p.2) p.1.base.path id := by
  rw [replies_handleFrame hE.arena hE.keep hinfo, queued_of_sends hE.after hid]
  have hitem : ∀ p : Offer × Nat,
      queued (E.found p.2) (replyTo E.errToName (E.found p.2) p.1.base.path id) =
        [replyTo E.errToName (E.found p.2) p.1.base.path id] := by
    intro p
    rw [queued_of_sends (hE.found p.2)]
    rwa [requestId_replyTo]
  simp only [hitem, List.map_eq_flatMap]

theorem not_answered {json : CStr} {w : Inbox}
    (h : (handleFrame c E json w).1.replies = w.replies) {requestId : Option CStr}
    (hinfo : infoOf c (c.parse json) = .put requestId)
    (hmember : hasMember (c.parse json) (lit "requestId")) : ¬ Answered c E json w := by
  intro hanswered
  obtain ⟨replies, hreplies, -, hall⟩ := hanswered requestId hinfo hmember
  rw [h, eq_comm, List.append_right_eq_self] at hreplies
  subst hreplies
  by_cases hnone : putOffers (c.parse json) = []
  · rw [if_pos hnone] at hall
    cases hall
  · rw [if_neg hnone] at hall
    exact hnone (List.length_eq_zero_iff.mp hall.symm)

theorem getObjectItem_of_strOf {root : Option Json} {name s : CStr} (h : strOf root name = some s) :
    getObjectItem root name = some (.string s) := by
  rw [strOf] at h
  cases hitem : getObjectItem root name with
  | none => simp [hitem] at h
  | some value =>
    cases value with
    | string t =>
      simp only [hitem, Option.some.injEq] at h
      rw [h]
    | _ => simp [hitem] at h

theorem answered_iff (hE : E.Unfailing) (json : CStr) (w : Inbox) :
    Answered c E json w ↔ Named c json := by
  constructor
  · intro h requestId hinfo hmember
    cases requestId with
    | none => exact absurd h (not_answered (replies_unnamed hE.arena hinfo w) hinfo hmember)
    | some id =>
      refine ⟨id, rfl, ?_⟩
      rintro rfl
      exact not_answered (replies_empty_id hE.arena hE.keep hinfo w) hinfo hmember h
  · intro h requestId hinfo hmember
    obtain ⟨id, rfl, hid⟩ := h requestId hinfo hmember
    have hquoted := getObjectItem_of_strOf (requestId_of_put hinfo).symm
    refine ⟨_, replies_named hE hid hinfo w, ?_, ?_⟩
    · intro r hr
      by_cases hnone : putOffers (c.parse json) = []
      · rw [if_pos hnone, List.mem_singleton] at hr
        rw [hr]
        exact hquoted
      · rw [if_neg hnone] at hr
        obtain ⟨p, -, rfl⟩ := List.mem_map.mp hr
        rw [requestId_replyTo]
        exact hquoted
    · by_cases hnone : putOffers (c.parse json) = []
      · rw [if_pos hnone, if_pos hnone]
        rfl
      · rw [if_neg hnone, if_neg hnone, List.length_map, List.length_zipIdx]

-- PUTs and deltas stay apart, and every PUT is answered, just when no item without
-- a request id is for a subscriber and a request id is a text.
theorem put_apart_and_answered_iff (c : Cjson) (E : Env) (json : CStr) (w : Inbox) :
    (Apart c E json w ∧ (E.Unfailing → Answered c E json w)) ↔
      (hasMember (c.parse json) (lit "put") → Unheard c E json) ∧
        (E.Unfailing → Named c json) := by
  rw [apart_iff]
  exact and_congr_right fun _ => forall_congr' fun hE => answered_iff hE json w

-- A PUT that names no request.
def bareCjson : Cjson where
  parse _ := some (.object [(lit "put", .array [.object
    [(lit "path", .string (lit "steering.autopilot.state")),
      (lit "value", .string (lit "auto"))]])])
  print _ := lit "\"auto\""
  valueint _ := 0

-- Its item is taken for one of a delta.
theorem put_heard_as_delta : ¬ ∀ (c : Cjson) (E : Env) (json : CStr) (w : Inbox),
    Apart c E json w ∧ (E.Unfailing → Answered c E json w) := by
  intro h
  have hcalls := (h bareCjson (calm (quiet [anyPath 1])) [] Inbox.start).1.put rfl
  have hlen := congrArg List.length hcalls
  revert hlen
  decide

end Espos.Sk.Inbound
