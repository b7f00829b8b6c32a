import Espos.Lib.Json
import Espos.Sk.Inbound.Puts

-- `espos_sk_frame_parse`: the kind of a frame and the items it hands out.

namespace Espos.Sk.Inbound

open Espos.Text

-- cJSON is a parameter: what it reads a frame to, with its strings as C sees
-- them, the text it prints for a value, and the `valueint` of a number.
structure Cjson where
  parse : CStr → Option Json
  print : Json → CStr
  valueint : Number → Int

-- The pointers of the code are `Option`s.
def isObject : Option Json → Bool
  | some (.object _) => true
  | _ => false

def isArray : Option Json → Bool
  | some (.array _) => true
  | _ => false

-- `cJSON_GetObjectItem`: the first member of that name, in upper or lower case.
def getObjectItem (o : Option Json) (name : CStr) : Option Json :=
  match o with
  | some (.object members) =>
    (members.find? fun m => m.1.map Char.toLower == name.map Char.toLower).map Prod.snd
  | _ => none

-- What `cJSON_ArrayForEach` goes over; the values of an object as well.
def children : Option Json → List Json
  | some (.array items) => items
  | some (.object members) => members.map Prod.snd
  | _ => []

def strOf (o : Option Json) (k : CStr) : Option CStr :=
  match getObjectItem o k with
  | some (.string s) => some s
  | _ => none

-- `espos_sk_update_t`
structure Update where
  context : Option CStr
  path : CStr
  valueJson : Option CStr
  metaJson : Option CStr
  timestamp : Option CStr
  source : Option CStr
  requestId : Option CStr
deriving DecidableEq

-- `espos_sk_frame_t`: the kind with the fields that are set for it.
inductive Info where
  | unknown
  | hello (self : Option CStr)
  | delta
  | response (r : Response)
  | error (text : CStr)
  | put (requestId : Option CStr)
deriving DecidableEq

def statusCodeOf (c : Cjson) : Option Json → Int
  | some (.number x) => c.valueint x
  | _ => 0

def responseOf (c : Cjson) (root : Option Json) : Response where
  requestId := strOf root (lit "requestId")
  state := strOf root (lit "state")
  statusCode := statusCodeOf c (getObjectItem root (lit "statusCode"))
  message := strOf root (lit "message")

-- The kind detection. A `put` comes before a response: both have a `requestId`.
def infoOf (c : Cjson) (root : Option Json) : Info :=
  let put := getObjectItem root (lit "put")
  match strOf root (lit "errorMessage") with
  | some text => .error text
  | none =>
    if isArray put || isObject put then .put (strOf root (lit "requestId"))
    else if (strOf root (lit "requestId")).isSome &&
        ((strOf root (lit "state")).isSome ||
          (getObjectItem root (lit "statusCode")).isSome) then
      .response (responseOf c root)
    else if isArray (getObjectItem root (lit "updates")) then .delta
    else if (strOf root (lit "self")).isSome || (strOf root (lit "version")).isSome then
      .hello (strOf root (lit "self"))
    else .unknown

-- An item to hand out: its value, still to be printed, and the update without
-- the text of it.
structure Offer where
  value : Json
  isMeta : Bool
  base : Update

def Offer.update (o : Offer) (text : CStr) : Update :=
  if o.isMeta then { o.base with metaJson := some text }
  else { o.base with valueJson := some text }

def baseUpdate (context : Option CStr) (path : CStr) (timestamp source requestId : Option CStr) :
    Update where
  context := context
  path := path
  valueJson := none
  metaJson := none
  timestamp := timestamp
  source := source
  requestId := requestId

-- An item with a path and a value. An explicit null is a value, a missing member
-- is not.
def offerOf (usable : Json → Bool) (isMeta : Bool) (base : CStr → Update) (item : Json) :
    Option Offer :=
  match strOf (some item) (lit "path"), getObjectItem (some item) (lit "value") with
  | some path, some value => if usable value then some ⟨value, isMeta, base path⟩ else none
  | _, _ => none

def putOffer (context requestId : Option CStr) : Json → Option Offer :=
  offerOf (fun _ => true) false (baseUpdate context · none none requestId)

def valueOffer (context timestamp source : Option CStr) : Json → Option Offer :=
  offerOf (fun _ => true) false (baseUpdate context · timestamp source none)

-- The value of a meta item is an object.
def metaOffer (context timestamp source : Option CStr) : Json → Option Offer :=
  offerOf (fun value => isObject (some value)) true (baseUpdate context · timestamp source none)

-- Where an update comes from: `$source`, or the label of `source`.
def sourceOf (upd : Json) : Option CStr :=
  match strOf (some upd) (lit "$source") with
  | some src => some src
  | none => strOf (getObjectItem (some upd) (lit "source")) (lit "label")

-- The loops over the items: what the callback works on, the values printed so
-- far, the items delivered, and whether to go on.
structure Walk (σ : Type) where
  state : σ
  printed : Nat
  delivered : Nat
  go : Bool

namespace Walk

variable {σ : Type} (c : Cjson) (keep : Nat → Bool) (cb : Nat → Update → σ → σ × Bool)

-- `keep` tells for each value printed whether there is memory for its text. The
-- callback is also told which value it is.
def offer (w : Walk σ) (o : Offer) : Walk σ :=
  if keep w.printed then
    let r := cb w.printed (o.update (c.print o.value)) w.state
    { state := r.1, printed := w.printed + 1, delivered := w.delivered + 1, go := r.2 }
  else { w with printed := w.printed + 1 }

def each (pick : Json → Option Offer) (w : Walk σ) : List Json → Walk σ
  | [] => w
  | item :: rest =>
    match pick item with
    | none => each pick w rest
    | some o =>
      let w := w.offer c keep cb o
      if w.go then each pick w rest else w

def eachOfUpdate (context : Option CStr) (w : Walk σ) (upd : Json) : Walk σ :=
  let timestamp := strOf (some upd) (lit "timestamp")
  let w := w.each c keep cb (valueOffer context timestamp (sourceOf upd))
    (children (getObjectItem (some upd) (lit "values")))
  if w.go then
    w.each c keep cb (metaOffer context timestamp (sourceOf upd))
      (children (getObjectItem (some upd) (lit "meta")))
  else w

def eachUpdate (context : Option CStr) (w : Walk σ) : List Json → Walk σ
  | [] => w
  | upd :: rest =>
    if w.go then eachUpdate context (w.eachOfUpdate c keep cb context upd) rest else w

end Walk

-- A single object is gone over like an array with it as the only item.
def putItems : Option Json → List Json
  | some (.object members) => [.object members]
  | some (.array items) => items
  | _ => []

def walkStart {σ : Type} (state : σ) : Walk σ where
  state := state
  printed := 0
  delivered := 0
  go := true

-- `espos_sk_frame_parse` with a callback. `arena` is whether its memory could be
-- had.
def frameParse {σ : Type} (c : Cjson) (arena : Bool) (keep : Nat → Bool)
    (cb : Nat → Update → σ → σ × Bool) (json : CStr) (state : σ) : Info × Nat × σ :=
  let root := c.parse json
  if isObject root && arena then
    let info := infoOf c root
    let context := strOf root (lit "context")
    let w :=
      match info with
      | .put requestId =>
        (walkStart state).each c keep cb (putOffer context requestId)
          (putItems (getObjectItem root (lit "put")))
      | .delta =>
        (walkStart state).eachUpdate c keep cb context
          (children (getObjectItem root (lit "updates")))
      | _ => walkStart state
    (info, w.delivered, w.state)
  else (.unknown, 0, state)

-- The items of a frame that can be used, in the order of the loops.
def updateOffers (context : Option CStr) (upd : Json) : List Offer :=
  let timestamp := strOf (some upd) (lit "timestamp")
  (children (getObjectItem (some upd) (lit "values"))).filterMap
      (valueOffer context timestamp (sourceOf upd)) ++
    (children (getObjectItem (some upd) (lit "meta"))).filterMap
      (metaOffer context timestamp (sourceOf upd))

def deltaOffers (root : Option Json) : List Offer :=
  (children (getObjectItem root (lit "updates"))).flatMap
    (updateOffers (strOf root (lit "context")))

def putOffers (root : Option Json) : List Offer :=
  (putItems (getObjectItem root (lit "put"))).filterMap
    (putOffer (strOf root (lit "context")) (strOf root (lit "requestId")))

def offers (c : Cjson) (root : Option Json) : List Offer :=
  match infoOf c root with
  | .put _ => putOffers root
  | .delta => deltaOffers root
  | _ => []

section Walks

variable {σ : Type} {c : Cjson} {keep : Nat → Bool} {cb : Nat → Update → σ → σ × Bool}

@[simp] theorem Offer.path_update (o : Offer) (text : CStr) :
    (o.update text).path = o.base.path := by
  rw [Offer.update]
  cases o.isMeta <;> rfl

@[simp] theorem Offer.requestId_update (o : Offer) (text : CStr) :
    (o.update text).requestId = o.base.requestId := by
  rw [Offer.update]
  cases o.isMeta <;> rfl

theorem Walk.go_offer (hcb : ∀ k u s, (cb k u s).2 = true) {w : Walk σ} (hgo : w.go = true)
    (o : Offer) : (w.offer c keep cb o).go = true := by
  rw [Walk.offer]
  by_cases hkeep : keep w.printed
  · rw [if_pos hkeep]
    exact hcb _ _ _
  · rw [if_neg hkeep]
    exact hgo

theorem Walk.go_foldl (hcb : ∀ k u s, (cb k u s).2 = true) (os : List Offer) {w : Walk σ}
    (hgo : w.go = true) : (os.foldl (Walk.offer c keep cb) w).go = true := by
  induction os generalizing w with
  | nil => exact hgo
  | cons o os ih => exact ih (w.go_offer hcb hgo o)

-- A callback that never stops the loops gets every item of theirs.
theorem Walk.each_eq (hcb : ∀ k u s, (cb k u s).2 = true) (pick : Json → Option Offer)
    (items : List Json) {w : Walk σ} (hgo : w.go = true) :
    w.each c keep cb pick items =
      (items.filterMap pick).foldl (Walk.offer c keep cb) w := by
  induction items generalizing w with
  | nil => rfl
  | cons item rest ih =>
    rw [Walk.each]
    cases hpick : pick item with
    | none =>
      rw [List.filterMap_cons_none hpick]
      exact ih hgo
    | some o =>
      have hgo' : (w.offer c keep cb o).go = true := Walk.go_offer hcb hgo o
      rw [List.filterMap_cons_some hpick, List.foldl_cons]
      dsimp only
      rw [if_pos hgo']
      exact ih hgo'

theorem Walk.eachOfUpdate_eq (hcb : ∀ k u s, (cb k u s).2 = true) (context : Option CStr)
    (upd : Json) {w : Walk σ} (hgo : w.go = true) :
    w.eachOfUpdate c keep cb context upd =
      (updateOffers context upd).foldl (Walk.offer c keep cb) w := by
  rw [Walk.eachOfUpdate, updateOffers, List.foldl_append, Walk.each_eq hcb _ _ hgo]
  rw [if_pos (Walk.go_foldl hcb _ hgo), Walk.each_eq hcb _ _ (Walk.go_foldl hcb _ hgo)]

theorem Walk.eachUpdate_eq (hcb : ∀ k u s, (cb k u s).2 = true) (context : Option CStr)
    (updates : List Json) {w : Walk σ} (hgo : w.go = true) :
    w.eachUpdate c keep cb context updates =
      (updates.flatMap (updateOffers context)).foldl (Walk.offer c keep cb) w := by
  induction updates generalizing w with
  | nil => rfl
  | cons upd rest ih =>
    rw [Walk.eachUpdate, if_pos hgo, Walk.eachOfUpdate_eq hcb _ _ hgo, List.flatMap_cons,
      List.foldl_append]
    exact ih (Walk.go_foldl hcb _ hgo)

theorem infoOf_of_not_object {root : Option Json} (h : isObject root = false) :
    infoOf c root = .unknown := by
  have hitem : ∀ name, getObjectItem root name = none := by
    intro name
    cases root with
    | none => rfl
    | some doc =>
      cases doc with
      | object members => cases h
      | _ => rfl
  simp [infoOf, strOf, hitem, isArray, isObject]

-- What a callback that never stops the loops makes of a frame.
def runOffers (c : Cjson) (keep : Nat → Bool) (cb : Nat → Update → σ → σ × Bool) :
    Nat → List Offer → σ → σ
  | _, [], s => s
  | k, o :: os, s =>
    runOffers c keep cb (k + 1) os (if keep k then (cb k (o.update (c.print o.value)) s).1 else s)

theorem state_foldl (os : List Offer) (w : Walk σ) :
    (os.foldl (Walk.offer c keep cb) w).state = runOffers c keep cb w.printed os w.state := by
  induction os generalizing w with
  | nil => rfl
  | cons o os ih =>
    rw [List.foldl_cons, ih, runOffers, Walk.offer]
    by_cases hkeep : keep w.printed
    · rw [if_pos hkeep, if_pos hkeep]
    · rw [if_neg hkeep, if_neg hkeep]

theorem requestId_of_put {root : Option Json} {requestId : Option CStr}
    (h : infoOf c root = .put requestId) : requestId = strOf root (lit "requestId") := by
  unfold infoOf at h
  cases herror : strOf root (lit "errorMessage") with
  | some text => simp [herror] at h
  | none =>
    simp only [herror] at h
    by_cases hput : (isArray (getObjectItem root (lit "put")) ||
        isObject (getObjectItem root (lit "put"))) = true
    · rw [if_pos hput] at h
      exact (Info.put.inj h).symm
    · rw [if_neg hput] at h
      simp only [ite_eq_iff, reduceCtorEq, and_false, or_false] at h

theorem base_of_offerOf {usable : Json → Bool} {isMeta : Bool} {base : CStr → Update}
    {item : Json} {o : Offer} (h : offerOf usable isMeta base item = some o) :
    ∃ path, o.base = base path := by
  unfold offerOf at h
  cases hpath : strOf (some item) (lit "path") with
  | none => simp [hpath] at h
  | some path =>
    cases hvalue : getObjectItem (some item) (lit "value") with
    | none => simp [hpath, hvalue] at h
    | some value =>
      simp only [hpath, hvalue, Option.ite_none_right_eq_some, Option.some.injEq] at h
      exact ⟨path, by rw [← h.2]⟩

-- The items of a PUT have its request id, those of a delta have none.
theorem requestId_putOffers {root : Option Json} {o : Offer} (h : o ∈ putOffers root) :
    o.base.requestId = strOf root (lit "requestId") := by
  obtain ⟨item, -, hitem⟩ := List.mem_filterMap.mp h
  obtain ⟨path, hbase⟩ := base_of_offerOf hitem
  rw [hbase]
  rfl

theorem requestId_deltaOffers {root : Option Json} {o : Offer} (h : o ∈ deltaOffers root) :
    o.base.requestId = none := by
  obtain ⟨upd, -, hupd⟩ := List.mem_flatMap.mp h
  rcases List.mem_append.mp hupd with hvalue | hmeta
  · obtain ⟨item, -, hitem⟩ := List.mem_filterMap.mp hvalue
    obtain ⟨path, hbase⟩ := base_of_offerOf hitem
    rw [hbase]
    rfl
  · obtain ⟨item, -, hitem⟩ := List.mem_filterMap.mp hmeta
    obtain ⟨path, hbase⟩ := base_of_offerOf hitem
    rw [hbase]
    rfl

-- What every item adds to a log is what the frame adds to it.
theorem runOffers_log {β : Type} (log : σ → List β) (adds : Nat → Update → List β)
    (hadds : ∀ k u s, log (cb k u s).1 = log s ++ adds k u) (k : Nat) (os : List Offer) (s : σ) :
    log (runOffers c keep cb k os s) = log s ++ (os.zipIdx k).flatMap fun p =>
      if keep p.2 then adds p.2 (p.1.update (c.print p.1.value)) else [] := by
  induction os generalizing k s with
  | nil => simp [runOffers]
  | cons o os ih =>
    rw [runOffers, ih, List.zipIdx_cons, List.flatMap_cons, ← List.append_assoc]
    by_cases hkeep : keep k
    · rw [if_pos hkeep, if_pos hkeep, hadds]
    · rw [if_neg hkeep, if_neg hkeep, List.append_nil]

-- What no item undoes holds to the end.
theorem runOffers_keeps {P : σ → Prop} (hP : ∀ k u s, P s → P (cb k u s).1) (k : Nat)
    (os : List Offer) {s : σ} (hs : P s) : P (runOffers c keep cb k os s) := by
  induction os generalizing k s with
  | nil => exact hs
  | cons o os ih =>
    rw [runOffers]
    by_cases hkeep : keep k
    · rw [if_pos hkeep]
      exact ih _ (hP _ _ _ hs)
    · rw [if_neg hkeep]
      exact ih _ hs

theorem frameParse_info (json : CStr) (s : σ) :
    (frameParse c true keep cb json s).1 = infoOf c (c.parse json) := by
  rw [frameParse]
  by_cases hroot : isObject (c.parse json) = true
  · rw [hroot, Bool.and_true, if_pos rfl]
  · rw [Bool.not_eq_true] at hroot
    rw [hroot, Bool.false_and, if_neg (by decide), infoOf_of_not_object hroot]

theorem frameParse_state (hcb : ∀ k u s, (cb k u s).2 = true) (json : CStr) (s : σ) :
    (frameParse c true keep cb json s).2.2 =
      runOffers c keep cb 0 (offers c (c.parse json)) s := by
  rw [frameParse]
  by_cases hroot : isObject (c.parse json) = true
  · rw [hroot, Bool.and_true, if_pos rfl, offers]
    dsimp only
    cases hinfo : infoOf c (c.parse json) with
    | put requestId =>
      dsimp only
      rw [Walk.each_eq hcb _ _ rfl, state_foldl, requestId_of_put hinfo]
      rfl
    | delta =>
      dsimp only
      rw [Walk.eachUpdate_eq hcb _ _ rfl, state_foldl]
      rfl
    | _ => rfl
  · rw [Bool.not_eq_true] at hroot
    rw [hroot, Bool.false_and, if_neg (by decide), offers, infoOf_of_not_object hroot]
    rfl

end Walks

end Espos.Sk.Inbound
