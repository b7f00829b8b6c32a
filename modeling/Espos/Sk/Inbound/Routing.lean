import Mathlib.Data.List.Flatten
import Espos.Sk.Inbound.Answer
import Espos.Sk.Inbound.Frames

-- `espos_sk_inbound_handle_frame`: which callbacks and handlers hear of a frame,
-- and what it is answered with.

namespace Espos.Sk.Inbound

open Espos.Text

-- `strncmp(a, b, n) == 0`
def strncmpEq (a b : CStr) (n : Nat) : Bool :=
  a.take n == b.take n

def pathMatches (pattern path : CStr) : Bool :=
  let pl := pattern.length
  if pl = 0 then false
  else if pattern[pl - 1]? = some '*' then
    let n := pl - 1
    if 0 < n ∧ pattern[n - 1]? = some '.' then
      strncmpEq pattern path (n - 1) && (path[n - 1]? = none || path[n - 1]? = some '.')
    else strncmpEq pattern path n
  else pattern == path

-- What a pattern is for: one path, a path with all that is below it, or all
-- paths with this beginning.
inductive Matches : CStr → CStr → Prop
  | exact {path : CStr} : path ≠ [] → path.getLast? ≠ some '*' → Matches path path
  | here (path : CStr) : Matches (path ++ ['.', '*']) path
  | below (top rest : CStr) : Matches (top ++ ['.', '*']) (top ++ '.' :: rest)
  | starts {start : CStr} (rest : CStr) : start.getLast? ≠ some '.' →
      Matches (start ++ ['*']) (start ++ rest)

-- A row of the table of PUT handlers in use. `cb` stands for the callback with
-- its argument.
structure Handler where
  path : CStr
  cb : Nat
deriving DecidableEq

def ESP_OK : Int32 := 0

def PUT_PENDING : Int32 := 1

def ESP_ERR_INVALID_ARG : Int32 := 0x102

-- What one item finds: other tasks and the callbacks change the tables and the
-- queue whenever the lock is free. `outcome` is what the handler returns, `link`
-- what its answer finds, with the memory for it and how cJSON prints its text.
structure Moment where
  subs : List Sub
  handlers : List (Option Handler)
  outcome : Int32
  malloc : Bool
  printed : Option CStr
  link : State

-- `arena` and `keep` are the memory of the parser. `found` has what the items
-- find, `after` what the answer finds that is made behind them.
structure Env where
  arena : Bool
  keep : Nat → Bool
  found : Nat → Moment
  after : Moment
  errToName : Int32 → CStr

-- The arguments of an answer.
structure Reply where
  requestId : CStr
  state : CStr
  statusCode : Int32
  message : CStr
deriving DecidableEq

-- The inbound state that the frames change, with the `answered` of the frame at
-- hand. Not in the code: the calls made, of subscribers and of handlers, and the
-- answers in the queue.
structure Inbox where
  frames : UInt32
  received : UInt32
  putsIn : UInt32
  putsRejected : UInt32
  answered : Bool
  calls : List (Sub × Update)
  handled : List (Handler × CStr × CStr)
  replies : List Reply

-- `espos_sk_put_respond`
def putRespond (m : Moment) (r : Reply) : EspErr :=
  if r.requestId = [] then .invalidArg
  else
    match putResponseFrame m.malloc m.printed (some r.requestId) (some r.state) r.statusCode
      r.message with
    | none => .noMem
    | some frame => (m.link.sendRaw frame.text).2

namespace Inbox

def respond (m : Moment) (r : Reply) (w : Inbox) : Inbox :=
  if putRespond m r = .ok then { w with replies := w.replies ++ [r] } else w

def reject (w : Inbox) : Inbox :=
  { w with putsRejected := w.putsRejected + 1 }

def answer (m : Moment) (r : Reply) (w : Inbox) : Inbox :=
  { w.respond m r with answered := true }

end Inbox

-- The rows of `hit`.
def MAX_HITS : Nat := 8

-- The loop that copies the matching subscribers; it has `n` of them.
def hitsFrom (path : CStr) : Nat → List Sub → List Sub
  | _, [] => []
  | n, e :: rest =>
    if n < MAX_HITS then
      if pathMatches e.pattern path then e :: hitsFrom path (n + 1) rest else hitsFrom path n rest
    else []

def dispatch (m : Moment) (u : Update) (w : Inbox) : Inbox × Bool :=
  let hit := hitsFrom u.path 0 m.subs
  ({ w with
      received := if hit = [] then w.received else w.received + 1
      calls := w.calls ++ hit.map fun e => (e, u) }, true)

def handlerOf (handlers : List (Option Handler)) (path : CStr) : Option Handler :=
  handlers.findSome? fun slot => slot.filter fun h => h.path == path

def dispatchPut (errToName : Int32 → CStr) (m : Moment) (u : Update) (w : Inbox) :
    Inbox × Bool :=
  let w := { w with putsIn := w.putsIn + 1 }
  match handlerOf m.handlers u.path with
  | none =>
    let w := w.reject
    match u.requestId with
    | none => (w, true)
    | some id =>
      (w.answer m ⟨id, lit "COMPLETED", 405, lit "PUT not supported for this path"⟩, true)
  | some h =>
    let w := { w with handled := w.handled ++ [(h, u.path, u.valueJson.getD (lit "null"))] }
    match u.requestId with
    | none => (w, true)
    | some id =>
      let err := m.outcome
      if err = PUT_PENDING then (w.answer m ⟨id, lit "PENDING", 202, []⟩, true)
      else if err = ESP_OK then (w.answer m ⟨id, lit "COMPLETED", 200, []⟩, true)
      else if err = ESP_ERR_INVALID_ARG then
        (w.answer m ⟨id, lit "COMPLETED", 400, lit "invalid value"⟩, true)
      else (w.reject.answer m ⟨id, lit "COMPLETED", 502, errToName err⟩, true)

def routeItem (errToName : Int32 → CStr) (m : Moment) (u : Update) (w : Inbox) : Inbox × Bool :=
  if u.requestId.isSome then dispatchPut errToName m u w else dispatch m u w

-- The callback that `espos_sk_frame_parse` is given.
def route (E : Env) (k : Nat) (u : Update) (w : Inbox) : Inbox × Bool :=
  routeItem E.errToName (E.found k) u w

-- What is left to do for a frame: nothing, `Puts.handleResponse`, or to give the
-- caller the text of an error.
inductive Outcome where
  | done
  | response (r : Response)
  | error (text : CStr)
deriving DecidableEq

def unusable (requestId : CStr) : Reply :=
  ⟨requestId, lit "COMPLETED", 400, lit "no usable path/value in the request"⟩

-- The switch over the kind, behind the items.
def close (E : Env) (info : Info) (w : Inbox) : Inbox × Outcome :=
  match info with
  | .put (some requestId) =>
    (if w.answered then w else w.respond E.after (unusable requestId), .done)
  | .response r => (w, .response r)
  | .error text => (w, .error text)
  | _ => (w, .done)

def handleFrame (c : Cjson) (E : Env) (json : CStr) (w : Inbox) : Inbox × Outcome :=
  let parsed := frameParse c E.arena E.keep (route E) json
    { w with frames := w.frames + 1, answered := false }
  close E parsed.1 parsed.2.2

theorem pathMatches_plain {pattern : CStr} (hne : pattern ≠ [])
    (hlast : pattern.getLast? ≠ some '*') (path : CStr) :
    pathMatches pattern path = (pattern == path) := by
  rw [List.getLast?_eq_getElem?] at hlast
  rw [pathMatches, if_neg (by simpa using hne), if_neg hlast]

theorem pathMatches_below (top path : CStr) :
    pathMatches (top ++ ['.', '*']) path =
      (top == path.take top.length &&
        (path[top.length]? = none || path[top.length]? = some '.')) := by
  simp [pathMatches, strncmpEq]

theorem pathMatches_starts {start : CStr} (hlast : start.getLast? ≠ some '.') (path : CStr) :
    pathMatches (start ++ ['*']) path = (start == path.take start.length) := by
  rw [List.getLast?_eq_getElem?] at hlast
  have hdot : ¬ (0 < start.length ∧ (start ++ ['*'])[start.length - 1]? = some '.') := by
    rintro ⟨hpos, hdot⟩
    rw [List.getElem?_append_left (by omega)] at hdot
    exact hlast hdot
  have hlen : (start ++ ['*']).length - 1 = start.length := by
    rw [List.length_append, List.length_singleton, Nat.add_sub_cancel]
  rw [pathMatches]
  dsimp only
  rw [hlen, if_neg (by simp), if_pos (by simp), if_neg hdot, strncmpEq, List.take_left]

theorem pathMatches_of_matches {pattern path : CStr} (h : Matches pattern path) :
    pathMatches pattern path = true := by
  cases h with
  | exact hne hlast => rw [pathMatches_plain hne hlast, beq_self_eq_true]
  | here => simp [pathMatches_below]
  | below top rest => simp [pathMatches_below]
  | starts rest hlast => simp [pathMatches_starts hlast]

theorem matches_of_pathMatches {pattern path : CStr} (h : pathMatches pattern path = true) :
    Matches pattern path := by
  by_cases hstar : pattern.getLast? = some '*'
  · obtain ⟨start, rfl⟩ := List.getLast?_eq_some_iff.mp hstar
    by_cases hdot : start.getLast? = some '.'
    · obtain ⟨top, rfl⟩ := List.getLast?_eq_some_iff.mp hdot
      rw [List.append_assoc] at h ⊢
      have hbelow := (pathMatches_below top path).symm.trans h
      rw [Bool.and_eq_true, Bool.or_eq_true, beq_iff_eq, decide_eq_true_iff,
        decide_eq_true_iff] at hbelow
      obtain ⟨htop, hend | hend⟩ := hbelow
      · rw [List.take_of_length_le (List.getElem?_eq_none_iff.mp hend)] at htop
        rw [htop]
        exact .here path
      · obtain ⟨hlt, hdot⟩ := List.getElem?_eq_some_iff.mp hend
        have hpath : path = top ++ '.' :: path.drop (top.length + 1) := by
          conv_lhs => rw [← List.take_append_drop top.length path, ← htop,
            List.drop_eq_getElem_cons hlt, hdot]
        rw [hpath]
        exact .below top _
    · rw [pathMatches_starts hdot, beq_iff_eq] at h
      have hpath : path = start ++ path.drop start.length := by
        conv_lhs => rw [← List.take_append_drop start.length path, ← h]
      rw [hpath]
      exact .starts _ hdot
  · by_cases hne : pattern = []
    · subst hne
      cases h
    · rw [pathMatches_plain hne hstar, beq_iff_eq] at h
      subst h
      exact .exact hne hstar

theorem pathMatches_iff {pattern path : CStr} :
    pathMatches pattern path = true ↔ Matches pattern path :=
  ⟨matches_of_pathMatches, pathMatches_of_matches⟩

instance (pattern path : CStr) : Decidable (Matches pattern path) :=
  decidable_of_iff _ pathMatches_iff

theorem hitsFrom_eq (path : CStr) (subs : List Sub) (n : Nat) :
    hitsFrom path n subs =
      (subs.filter fun e => pathMatches e.pattern path).take (MAX_HITS - n) := by
  induction subs generalizing n with
  | nil => simp [hitsFrom]
  | cons e rest ih =>
    rw [hitsFrom]
    by_cases hn : n < MAX_HITS
    · rw [if_pos hn]
      by_cases hmatch : pathMatches e.pattern path = true
      · have hroom : MAX_HITS - n = MAX_HITS - (n + 1) + 1 := by omega
        rw [if_pos hmatch, List.filter_cons, if_pos hmatch, hroom, List.take_succ_cons, ih]
      · rw [if_neg hmatch, List.filter_cons, if_neg hmatch, ih]
    · have hroom : MAX_HITS - n = 0 := by omega
      rw [if_neg hn, hroom, List.take_zero]

-- What one item adds to each of the logs.
def callsOf (m : Moment) (u : Update) : List (Sub × Update) :=
  if u.requestId.isSome then [] else (hitsFrom u.path 0 m.subs).map fun e => (e, u)

def handledOf (m : Moment) (u : Update) : List (Handler × CStr × CStr) :=
  if u.requestId.isSome then
    (handlerOf m.handlers u.path).toList.map fun h => (h, u.path, u.valueJson.getD (lit "null"))
  else []

def outcomeReply (errToName : Int32 → CStr) (err : Int32) (id : CStr) : Reply :=
  if err = PUT_PENDING then ⟨id, lit "PENDING", 202, []⟩
  else if err = ESP_OK then ⟨id, lit "COMPLETED", 200, []⟩
  else if err = ESP_ERR_INVALID_ARG then ⟨id, lit "COMPLETED", 400, lit "invalid value"⟩
  else ⟨id, lit "COMPLETED", 502, errToName err⟩

def replyTo (errToName : Int32 → CStr) (m : Moment) (path id : CStr) : Reply :=
  match handlerOf m.handlers path with
  | none => ⟨id, lit "COMPLETED", 405, lit "PUT not supported for this path"⟩
  | some _ => outcomeReply errToName m.outcome id

def queued (m : Moment) (r : Reply) : List Reply :=
  if putRespond m r = .ok then [r] else []

def repliesOf (errToName : Int32 → CStr) (m : Moment) (u : Update) : List Reply :=
  match u.requestId with
  | none => []
  | some id => queued m (replyTo errToName m u.path id)

namespace Inbox

variable (m : Moment) (r : Reply) (w : Inbox)

@[simp] theorem calls_respond : (w.respond m r).calls = w.calls := by
  rw [respond]
  by_cases h : putRespond m r = .ok <;> simp [h]

@[simp] theorem handled_respond : (w.respond m r).handled = w.handled := by
  rw [respond]
  by_cases h : putRespond m r = .ok <;> simp [h]

theorem replies_respond : (w.respond m r).replies = w.replies ++ queued m r := by
  rw [respond, queued]
  by_cases h : putRespond m r = .ok <;> simp [h]

end Inbox

-- What the item does, in one place.
structure Adds (errToName : Int32 → CStr) (m : Moment) (u : Update) (w : Inbox)
    (r : Inbox × Bool) : Prop where
  calls : r.1.calls = w.calls ++ callsOf m u
  handled : r.1.handled = w.handled ++ handledOf m u
  replies : r.1.replies = w.replies ++ repliesOf errToName m u
  answered : r.1.answered = (w.answered || u.requestId.isSome)
  goes : r.2 = true

variable {errToName : Int32 → CStr} {m : Moment} {u : Update} {w : Inbox}

theorem dispatch_adds (hnone : u.requestId = none) : Adds errToName m u w (dispatch m u w) where
  calls := by simp [dispatch, callsOf, hnone]
  handled := by simp [dispatch, handledOf, hnone]
  replies := by simp [dispatch, repliesOf, hnone]
  answered := by simp [dispatch, hnone]
  goes := rfl

-- The answer to an item; before it, only counters and the log of the handlers
-- have changed.
theorem adds_answer {id : CStr} (hid : u.requestId = some id) {w' : Inbox}
    (hcalls : w'.calls = w.calls) (hhandled : w'.handled = w.handled ++ handledOf m u)
    (hreplies : w'.replies = w.replies) :
    Adds errToName m u w (w'.answer m (replyTo errToName m u.path id), true) where
  calls := by simp [Inbox.answer, callsOf, hid, hcalls]
  handled := by simp [Inbox.answer, hhandled]
  replies := by simp [Inbox.answer, Inbox.replies_respond, hreplies, repliesOf, hid]
  answered := by simp [Inbox.answer, hid]
  goes := rfl

theorem dispatchPut_adds {id : CStr} (hid : u.requestId = some id) :
    Adds errToName m u w (dispatchPut errToName m u w) := by
  cases hhandler : handlerOf m.handlers u.path with
  | none =>
    have hreply : replyTo errToName m u.path id =
        ⟨id, lit "COMPLETED", 405, lit "PUT not supported for this path"⟩ := by
      rw [replyTo, hhandler]
    simp only [dispatchPut, hhandler, hid, ← hreply]
    exact adds_answer hid rfl (by simp [Inbox.reject, handledOf, hid, hhandler]) rfl
  | some h =>
    have hreply : replyTo errToName m u.path id = outcomeReply errToName m.outcome id := by
      rw [replyTo, hhandler]
    have hhandled : [(h, u.path, u.valueJson.getD (lit "null"))] = handledOf m u := by
      simp [handledOf, hid, hhandler]
    unfold outcomeReply at hreply
    simp only [dispatchPut, hhandler, hid, hhandled]
    by_cases hpending : m.outcome = PUT_PENDING
    · rw [if_pos hpending] at hreply ⊢
      rw [← hreply]
      exact adds_answer hid rfl rfl rfl
    · rw [if_neg hpending] at hreply ⊢
      by_cases hok : m.outcome = ESP_OK
      · rw [if_pos hok] at hreply ⊢
        rw [← hreply]
        exact adds_answer hid rfl rfl rfl
      · rw [if_neg hok] at hreply ⊢
        by_cases hinvalid : m.outcome = ESP_ERR_INVALID_ARG
        · rw [if_pos hinvalid] at hreply ⊢
          rw [← hreply]
          exact adds_answer hid rfl rfl rfl
        · rw [if_neg hinvalid] at hreply ⊢
          rw [← hreply]
          exact adds_answer hid rfl rfl rfl

theorem routeItem_adds (errToName : Int32 → CStr) (m : Moment) (u : Update) (w : Inbox) :
    Adds errToName m u w (routeItem errToName m u w) := by
  rw [routeItem]
  cases hid : u.requestId with
  | none => exact dispatch_adds hid
  | some id => exact dispatchPut_adds hid

section Frames

variable {c : Cjson} {E : Env}

theorem route_goes (E : Env) (k : Nat) (u : Update) (w : Inbox) : (route E k u w).2 = true :=
  (routeItem_adds _ _ _ _).goes

-- The items of a frame that there is memory for, each with what it finds.
def kept (c : Cjson) (E : Env) (json : CStr) : List (Moment × Update) :=
  ((offers c (c.parse json)).zipIdx.filter fun p => E.arena && E.keep p.2).map fun p =>
    (E.found p.2, p.1.update (c.print p.1.value))

theorem flatMap_kept {β : Type} (adds : Moment → Update → List β) (json : CStr) :
    ((kept c E json).flatMap fun p => adds p.1 p.2) =
      (offers c (c.parse json)).zipIdx.flatMap fun p =>
        if (E.arena && E.keep p.2) = true then
          adds (E.found p.2) (p.1.update (c.print p.1.value))
        else [] := by
  rw [kept, List.flatMap_map]
  induction (offers c (c.parse json)).zipIdx with
  | nil => rfl
  | cons p l ih =>
    rw [List.flatMap_cons, List.filter_cons]
    by_cases hkeep : (E.arena && E.keep p.2) = true
    · rw [if_pos hkeep, if_pos hkeep, List.flatMap_cons, ih]
    · rw [if_neg hkeep, if_neg hkeep, ih, List.nil_append]

theorem log_frameParse {β : Type} (log : Inbox → List β) (adds : Moment → Update → List β)
    (hadds : ∀ k u w, log (route E k u w).1 = log w ++ adds (E.found k) u) (json : CStr)
    (w : Inbox) :
    log (frameParse c E.arena E.keep (route E) json w).2.2 =
      log w ++ (kept c E json).flatMap fun p => adds p.1 p.2 := by
  rw [flatMap_kept]
  cases harena : E.arena with
  | false => simp [frameParse]
  | true =>
    rw [frameParse_state (route_goes E), runOffers_log log (fun k u => adds (E.found k) u) hadds]
    simp only [Bool.true_and]

@[simp] theorem calls_close (E : Env) (info : Info) (w : Inbox) :
    (close E info w).1.calls = w.calls := by
  cases info with
  | put requestId =>
    cases requestId with
    | none => rfl
    | some id =>
      rw [close]
      cases w.answered <;> simp
  | _ => rfl

@[simp] theorem handled_close (E : Env) (info : Info) (w : Inbox) :
    (close E info w).1.handled = w.handled := by
  cases info with
  | put requestId =>
    cases requestId with
    | none => rfl
    | some id =>
      rw [close]
      cases w.answered <;> simp
  | _ => rfl

theorem calls_handleFrame (json : CStr) (w : Inbox) :
    (handleFrame c E json w).1.calls =
      w.calls ++ (kept c E json).flatMap fun p => callsOf p.1 p.2 := by
  rw [handleFrame, calls_close]
  exact log_frameParse Inbox.calls callsOf (fun _ _ _ => (routeItem_adds _ _ _ _).calls) json _

theorem handled_handleFrame (json : CStr) (w : Inbox) :
    (handleFrame c E json w).1.handled =
      w.handled ++ (kept c E json).flatMap fun p => handledOf p.1 p.2 := by
  rw [handleFrame, handled_close]
  exact log_frameParse Inbox.handled handledOf (fun _ _ _ => (routeItem_adds _ _ _ _).handled)
    json _

end Frames

section Heard

variable (c : Cjson) (E : Env)

-- The subscriptions an item is for, and the calls that makes.
def matching (k : Nat) (o : Offer) : List Sub :=
  (E.found k).subs.filter fun e => Matches e.pattern o.base.path

def callsFor (p : Offer × Nat) : List (Sub × Update) :=
  (matching E p.2 p.1).map fun e => (e, p.1.update (c.print p.1.value))

-- Every item calls each of its subscriptions once, in the order of the table, and
-- no other.
def EveryMatchHeard (json : CStr) (w : Inbox) : Prop :=
  (handleFrame c E json w).1.calls =
    w.calls ++ (deltaOffers (c.parse json)).zipIdx.flatMap (callsFor c E)

variable {c E}

theorem callsOf_update {k : Nat} {o : Offer} (hnone : o.base.requestId = none) (text : CStr) :
    callsOf (E.found k) (o.update text) =
      ((matching E k o).take MAX_HITS).map fun e => (e, o.update text) := by
  simp only [callsOf, Offer.requestId_update, hnone, Option.isSome_none, Bool.false_eq_true,
    if_false, Offer.path_update, hitsFrom_eq, Nat.sub_zero, matching]
  simp only [← pathMatches_iff, Bool.decide_eq_true]

theorem take_map_sublist {β γ : Type} (f : β → γ) (n : Nat) (l : List β) (q : Prop)
    [Decidable q] : List.Sublist (if q then (l.take n).map f else []) (l.map f) := by
  by_cases hq : q
  · rw [if_pos hq]
    exact (List.take_sublist n l).map f
  · rw [if_neg hq]
    exact List.nil_sublist _

theorem take_map_eq_iff {β γ : Type} (f : β → γ) (n : Nat) (l : List β) (q : Prop)
    [Decidable q] :
    (if q then (l.take n).map f else []) = l.map f ↔ l = [] ∨ l.length ≤ n ∧ q := by
  by_cases hq : q
  · simp only [hq, if_true, and_true]
    constructor
    · intro h
      have hlen := congrArg List.length h
      simp only [List.length_map, List.length_take] at hlen
      exact .inr (by omega)
    · rintro (rfl | hlen)
      · rw [List.take_nil]
      · rw [List.take_of_length_le hlen]
  · simp [hq, eq_comm]

-- Parts of the right lists make up all of them only if each is the whole list.
theorem flatMap_eq_iff {β γ : Type} {f g : β → List γ} {l : List β}
    (h : ∀ x ∈ l, (f x).Sublist (g x)) : l.flatMap f = l.flatMap g ↔ ∀ x ∈ l, f x = g x := by
  induction l with
  | nil => simp
  | cons x l ih =>
    have hrest : ∀ y ∈ l, (f y).Sublist (g y) := fun y hy => h y (List.mem_cons_of_mem x hy)
    rw [List.forall_mem_cons, ← ih hrest, List.flatMap_cons, List.flatMap_cons]
    constructor
    · intro heq
      have hfirst := (h x List.mem_cons_self).length_le
      have hothers := (List.Sublist.flatMap_right l hrest).length_le
      have hlen := congrArg List.length heq
      rw [List.length_append, List.length_append] at hlen
      exact List.append_inj heq (by omega)
    · rintro ⟨hfirst, hothers⟩
      rw [hfirst, hothers]

-- What the frame adds, item by item, with the calls there would be room for.
theorem calls_delta {json : CStr} (hdelta : infoOf c (c.parse json) = .delta) :
    ((kept c E json).flatMap fun p => callsOf p.1 p.2) =
      (deltaOffers (c.parse json)).zipIdx.flatMap fun p =>
        if (E.arena && E.keep p.2) = true then
          ((matching E p.2 p.1).take MAX_HITS).map fun e =>
            (e, p.1.update (c.print p.1.value))
        else [] := by
  have hoffers : offers c (c.parse json) = deltaOffers (c.parse json) := by
    rw [offers, hdelta]
  rw [flatMap_kept, hoffers]
  refine List.flatMap_congr fun p hp => ?_
  rw [callsOf_update (requestId_deltaOffers (List.fst_mem_of_mem_zipIdx hp))]

theorem delta_heard_iff {json : CStr} (hdelta : infoOf c (c.parse json) = .delta) (w : Inbox) :
    EveryMatchHeard c E json w ↔
      ∀ p ∈ (deltaOffers (c.parse json)).zipIdx, matching E p.2 p.1 = [] ∨
        (matching E p.2 p.1).length ≤ MAX_HITS ∧ E.arena = true ∧ E.keep p.2 = true := by
  rw [EveryMatchHeard, calls_handleFrame, List.append_cancel_left_eq, calls_delta hdelta]
  have hparts : ∀ p ∈ (deltaOffers (c.parse json)).zipIdx,
      (if (E.arena && E.keep p.2) = true then
        ((matching E p.2 p.1).take MAX_HITS).map fun e => (e, p.1.update (c.print p.1.value))
      else []).Sublist (callsFor c E p) := fun p _ => take_map_sublist _ _ _ _
  rw [flatMap_eq_iff hparts]
  simp only [callsFor, take_map_eq_iff, Bool.and_eq_true]

end Heard

-- One value of a delta, and as many subscriptions for everything as are given.
def depthDoc : Json :=
  .object [(lit "updates", .array [.object [(lit "values", .array [.object
    [(lit "path", .string (lit "environment.depth.belowKeel")),
      (lit "value", .number (.finite 4))]])]])]

def depthCjson : Cjson where
  parse _ := some depthDoc
  print _ := lit "4"
  valueint _ := 0

def anyPath (handle : Nat) : Sub where
  handle := handle
  pattern := lit "*"
  periodMs := 1000
  cb := handle
  sent := true

def quiet (subs : List Sub) : Moment where
  subs := subs
  handlers := []
  outcome := ESP_OK
  malloc := true
  printed := none
  link := { State.init with connected := true }

def calm (m : Moment) : Env where
  arena := true
  keep _ := true
  found _ := m
  after := m
  errToName _ := lit "ESP_FAIL"

def Inbox.start : Inbox where
  frames := 0
  received := 0
  putsIn := 0
  putsRejected := 0
  answered := false
  calls := []
  handled := []
  replies := []

theorem delta_heard_by_eight :
    EveryMatchHeard depthCjson (calm (quiet ((List.range 8).map anyPath))) [] Inbox.start :=
  (delta_heard_iff rfl _).mpr (by decide)

-- The ninth subscription for the path hears nothing.
theorem ninth_not_heard : ¬ ∀ (K : Kconfig) (c : Cjson) (m : Moment) (json : CStr) (w : Inbox),
    m.subs.length ≤ K.skMaxSubs → infoOf c (c.parse json) = .delta →
      EveryMatchHeard c (calm m) json w := by
  intro h
  have hheard := h Kconfig.default depthCjson (quiet ((List.range 9).map anyPath)) [] Inbox.start
    (by decide) rfl
  have hlen := congrArg List.length hheard
  revert hlen
  decide

end Espos.Sk.Inbound
