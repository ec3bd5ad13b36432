import Collage.Cache.Edits
import Collage.Cache.Requests

/-!
# Pins

An item of the cache is pinned as often as there are outstanding requests that use it. No operation
of the cache touches a pinned item, so what a request has pinned is there when its reply arrives. A
reply that is lost with the node of the master leaves the item pinned.
-/

namespace Collage.Cache

open Object

namespace InstanceCache

variable {c : InstanceCache}

def accessOf (c : InstanceCache) (id : ℕ) : ℕ := ((c.find id).map Item.access).getD 0

/-- The items are pinned as often as `pins` says, and none was released more often. -/
structure Pinned (pins : ℕ → ℕ) (c : InstanceCache) : Prop where
  distinct : c.Distinct
  access : ∀ id, c.accessOf id = pins id
  failed : Assertion.releasedPinned ∉ c.failed

theorem failed_deleteStreams (c : InstanceCache) (streams : List DataStream)
    (h : Assertion.releasedPinned ∉ c.failed) :
    Assertion.releasedPinned ∉ (c.deleteStreams streams).failed := by
  induction streams generalizing c with
  | nil => exact h
  | cons s streams ih =>
      refine ih (c.deleteStream s) (fun hmem => ?_)
      rcases List.mem_append.1 hmem with hmem | hmem
      · rcases List.mem_append.1 hmem with hmem | hmem
        · exact h hmem
        · split_ifs at hmem <;> simp at hmem
      · split_ifs at hmem <;> simp at hmem

namespace Pinned

variable {pins : ℕ → ℕ}

theorem deleteStreams (h : Pinned pins c) (streams : List DataStream) :
    Pinned pins (c.deleteStreams streams) := by
  refine ⟨h.distinct.deleteStreams streams, fun id => ?_, failed_deleteStreams c streams h.failed⟩
  rw [accessOf, find_deleteStreams]
  exact h.access id

theorem set (h : Pinned pins c) {id : ℕ} {i i' : Item} (hi : c.find id = some i)
    (hid : i'.id = i.id) (haccess : i'.access = i.access) : Pinned pins (c.set i') := by
  refine ⟨h.distinct.set i', fun k => ?_, h.failed⟩
  rw [accessOf, find_set_access hi hid haccess]
  exact h.access k

theorem drop (h : Pinned pins c) {id : ℕ} {i : Item} (hi : c.find id = some i)
    (haccess : i.access = 0) : Pinned pins (c.drop id) := by
  refine ⟨h.distinct.drop id, fun k => ?_, h.failed⟩
  rw [← h.access k, accessOf, accessOf, find_drop]
  split_ifs with hk
  · rw [hk, hi, Option.map_none, Option.getD_none, Option.map_some, Option.getD_some, haccess]
  · rfl

theorem releaseItems (h : Pinned pins c) (minUsage : ℕ) (order : List ℕ) :
    Pinned pins (c.releaseItems minUsage order) := by
  refine releaseItems_induct (fun c id i hc hi _ _ => ?_) (fun c id i hc hi haccess _ => ?_) h order
  · rcases releaseFirstStream_cases c i with ⟨-, heq⟩ | ⟨s, versions, -, heq⟩
    · rwa [heq]
    · rw [heq]
      have hset : Pinned pins (c.set { i with versions := versions, times := i.times.tail }) :=
        hc.set hi rfl rfl
      exact hset.deleteStreams [s]
  · exact hc.drop hi haccess

theorem withItem (h : Pinned pins c) (chunk : Chunk) : Pinned pins (c.withItem chunk) := by
  rcases withItem_cases c chunk with ⟨i, -, heq⟩ | ⟨hnone, heq, hfind⟩
  · rwa [heq]
  · refine ⟨h.distinct.withItem chunk, fun k => ?_, ?_⟩
    · rw [← h.access k, accessOf, accessOf]
      by_cases hk : k = chunk.id
      · rw [hk, hfind, hnone]
        rfl
      · rw [heq]
        unfold find Keyed.lookup
        rw [List.find?_append]
        cases hfound : c.items.find? (fun i => i.id = k) with
        | some i => rfl
        | none =>
            have hne : ¬ (Item.create chunk).id = k := fun he => hk he.symm
            rw [Option.none_or, List.find?_cons_of_neg (by simpa using hne), List.find?_nil]
    · rw [heq]
      exact h.failed

theorem enter (h : Pinned pins c) (chunk : Chunk) (usage : ℕ) (now : ℤ) :
    Pinned pins (c.enter chunk usage now).2 := by
  have hitem := h.withItem chunk
  unfold InstanceCache.enter
  split
  · exact hitem
  · next i hi =>
    split
    · exact hitem
    · next deleted taken htake =>
      have htaken : taken.access = i.access := by
        rcases Item.take_cases htake with ⟨-, -, rfl⟩ | ⟨-, -, -, rfl⟩ <;> rfl
      have hset := (hitem.set hi (Item.take_id htake) htaken).deleteStreams deleted
      have hfind : (((c.withItem chunk).set taken).deleteStreams deleted).find chunk.id =
          some taken := by
        rw [find_deleteStreams]
        exact find_set hi (Item.take_id htake)
      simp only
      split
      · exact hset
      · next deleted' entered henter =>
        have hentered : entered.access = taken.access := by
          rcases Item.enter_cases henter with ⟨-, rfl, -⟩ | ⟨-, back, -, -, -, rfl⟩ |
            ⟨-, -, -, rfl⟩ <;> rfl
        have h' := (hset.set hfind (Item.enter_id henter) hentered).deleteStreams deleted'
        exact ⟨h'.distinct, h'.access, h'.failed⟩

theorem add (h : Pinned pins c) (chunk : Chunk) (usage : ℕ) (now : ℤ) (order : List ℕ) :
    Pinned pins (c.add chunk usage now order).2 := by
  have henter := h.enter chunk usage now
  unfold InstanceCache.add
  split
  · next heq => rwa [heq] at henter
  · next heq =>
    rw [heq] at henter
    exact (henter.releaseItems 1 order).releaseItems 0 order

theorem erase (h : Pinned pins c) (id : ℕ) : Pinned pins (c.erase id).2 := by
  unfold InstanceCache.erase
  split
  · exact h
  · next i hi =>
    split_ifs with haccess
    · exact h
    · exact (h.drop hi (not_not.1 haccess)).deleteStreams _

theorem filter_map (h : Pinned pins c) {f : Item → Item} {p : Item → Bool}
    (hid : ∀ i, (f i).id = i.id) (haccess : ∀ i, (f i).access = i.access)
    (hp : ∀ i, p i = false → i.access = 0) :
    Pinned pins { c with items := (c.items.map f).filter p } := by
  have hids : (c.items.map f).map Item.id = c.items.map Item.id := by
    rw [List.map_map]
    exact List.map_congr_left (fun i _ => hid i)
  have hdistinct : ((c.items.map f).map Item.id).Nodup := hids ▸ h.distinct
  have hdistinct' : (((c.items.map f).filter p).map Item.id).Nodup :=
    hdistinct.sublist (List.filter_sublist.map _)
  refine ⟨hdistinct', fun k => ?_, h.failed⟩
  rw [← h.access k, accessOf, accessOf]
  cases hi : c.find k with
  | none =>
      have hnone : Keyed.lookup Item.id k ((c.items.map f).filter p) = none := by
        refine Keyed.lookup_eq_none_iff.2 (fun hmem => ?_)
        have hmem' := (List.filter_sublist.map Item.id).mem hmem
        rw [hids] at hmem'
        exact Keyed.lookup_eq_none_iff.1 hi hmem'
      change ((Keyed.lookup Item.id k ((c.items.map f).filter p)).map Item.access).getD 0 = _
      rw [hnone]
  | some i =>
      have hkey : i.id = k := Keyed.key_of_lookup hi
      have hmem : f i ∈ c.items.map f := List.mem_map_of_mem (Keyed.mem_of_lookup hi)
      change ((Keyed.lookup Item.id k ((c.items.map f).filter p)).map Item.access).getD 0 = _
      by_cases hpi : p (f i) = true
      · have hfound := Keyed.lookup_of_mem hdistinct' (List.mem_filter.2 ⟨hmem, hpi⟩)
        rw [hid, hkey] at hfound
        rw [hfound, Option.map_some, Option.map_some, haccess]
      · have hzero := hp (f i) (by simpa using hpi)
        have hnone : Keyed.lookup Item.id k ((c.items.map f).filter p) = none := by
          refine Keyed.lookup_eq_none_iff.2 (fun hk => ?_)
          obtain ⟨j, hj, hjk⟩ := List.mem_map.1 hk
          obtain ⟨hj, hpj⟩ := List.mem_filter.1 hj
          have hji : j = f i := by
            refine Keyed.eq_of_lookup hdistinct ?_ hj ((hid i).symm ▸ hjk.trans hkey.symm)
            exact Keyed.lookup_of_mem hdistinct hmem
          exact hpi (hji ▸ hpj)
        rw [hnone, Option.map_some, Option.getD_some, ← haccess i, hzero]
        rfl

theorem remove (h : Pinned pins c) (node : ℕ) : Pinned pins (c.remove node) := by
  have hfilter := h.filter_map (p := fun i => ¬ (i.sender = node ∧ i.access = 0))
    (f := id) (fun _ => rfl) (fun _ => rfl) (by simp)
  rw [List.map_id] at hfilter
  exact hfilter.deleteStreams _

theorem expire (h : Pinned pins c) (now timeout : ℤ) : Pinned pins (c.expire now timeout) := by
  unfold InstanceCache.expire
  split_ifs
  · exact h
  · refine deleteStreams ?_ _
    rw [List.map_map]
    refine h.filter_map (fun i => (i.shrunkFrom_expire _).id) (fun i => ?_)
      (fun i hi => by simp_all)
    simp only [Function.comp_apply, Item.expire]
    split_ifs <;> rfl

theorem access_eq (h : Pinned pins c) {id : ℕ} {i : Item} (hi : c.find id = some i) :
    i.access = pins id := by
  rw [← h.access id, accessOf, hi]
  rfl

theorem set_access (h : Pinned pins c) {id : ℕ} {i : Item} (hi : c.find id = some i) (i' : Item)
    (hid : i'.id = i.id) : Pinned (Function.update pins id i'.access) (c.set i') := by
  refine ⟨h.distinct.set _, fun k => ?_, h.failed⟩
  rcases eq_or_ne k id with rfl | hk
  · rw [Function.update_self, accessOf, find_set hi hid, Option.map_some, Option.getD_some]
  · rw [Function.update_of_ne hk, ← h.access k, accessOf, accessOf, find_set_ne hi hid hk]

theorem access_update (h : Pinned pins c) (id : ℕ) :
    Pinned (Function.update pins id (pins id + if (c.access id).1.isSome then 1 else 0))
      (c.access id).2 := by
  unfold InstanceCache.access
  cases hi : c.find id with
  | none => simpa using h
  | some i =>
      rw [← h.access_eq hi]
      exact h.set_access hi { i with access := i.access + 1, used := i.used + 1 } rfl

theorem unpin (h : Pinned pins c) {id : ℕ} {i : Item} (hi : c.find id = some i) {count : ℕ}
    (hcount : count ≤ pins id) :
    Pinned (Function.update pins id (pins id - count)) (c.unpin i count) := by
  have haccess : wrapSub 32 i.access count = pins id - count := by
    rw [wrapSub, h.access_eq hi, if_pos hcount]
  have hset := h.set_access hi { i with access := wrapSub 32 i.access count } rfl
  rw [show ({ i with access := wrapSub 32 i.access count } : Item).access = pins id - count from
    haccess] at hset
  refine ⟨hset.distinct, hset.access, ?_⟩
  change Assertion.releasedPinned ∉ c.failed ++ _
  rw [h.access_eq hi, if_pos hcount, List.append_nil]
  exact h.failed

theorem release (h : Pinned pins c) {id count : ℕ} (hpos : 0 < count) (hcount : count ≤ pins id)
    (order : List ℕ) :
    Pinned (Function.update pins id (pins id - count)) (c.release id count order).2 := by
  unfold InstanceCache.release
  cases hi : c.find id with
  | none =>
      have hzero : pins id = 0 := by
        rw [← h.access id, accessOf, hi]
        rfl
      omega
  | some i => exact (h.unpin hi hcount).releaseItems 1 order

end Pinned

end InstanceCache

variable {S : Type}

/-- A reply asks for the release of what the request has pinned. -/
def Reply.Sound (command : MasterCommand) (reply : Reply) : Prop :=
  reply.releaseCache = command.useCache ∧ (reply.useCache = true → command.useCache = true)

theorem replyOf_mapMessages (m : MasterCM S) (command : MasterCommand) {reply : Reply}
    (h : Manager.replyOf (m.mapMessages command) = some reply) : reply.Sound command := by
  obtain ⟨sent, hmem, hreply⟩ := List.exists_of_findSome?_eq_some h
  unfold MasterCM.mapMessages at hmem
  split_ifs at hmem
  · simp only [List.mem_cons, List.not_mem_nil, or_false] at hmem
    rcases hmem with rfl | rfl | rfl
    · cases hreply
    · cases hreply
    · obtain rfl := Option.some.inj hreply
      exact ⟨rfl, nofun⟩
  · have hflag : (command.useCache && decide (command.masterInstanceID = m.instanceID)) = true →
        command.useCache = true := fun huse => (Bool.and_eq_true_iff.1 huse).1
    simp only [MasterCM.initSlave] at hmem
    split_ifs at hmem
    · simp only [List.mem_cons, List.not_mem_nil, or_false] at hmem
      rcases hmem with rfl | rfl
      · cases hreply
      · obtain rfl := Option.some.inj hreply
        exact ⟨rfl, hflag⟩
    · rcases List.mem_append.1 hmem with hmem | hmem
      · rcases List.mem_cons.1 hmem with rfl | hmem
        · cases hreply
        · obtain ⟨d, -, rfl⟩ := List.mem_map.1 hmem
          cases hreply
      · rw [List.mem_singleton.1 hmem] at hreply
        obtain rfl := Option.some.inj hreply
        exact ⟨rfl, hflag⟩

theorem refusal_sound (command : MasterCommand) : (refusal command).Sound command := ⟨rfl, nofun⟩

theorem cmdMap_sound (cm : Option (Manager S)) (command : MasterCommand) :
    (cmdMap cm command).Sound command := by
  unfold cmdMap
  cases hreply : cm.bind (Manager.addSlave command) with
  | none => exact refusal_sound command
  | some reply =>
      obtain ⟨m, -, hm⟩ := Option.bind_eq_some_iff.1 hreply
      cases m with
      | unbuffered instanceID version attached =>
          simp only [Manager.addSlave] at hm
          split_ifs at hm with hnone huse hattached <;> obtain rfl := Option.some.inj hm
          · exact ⟨rfl, nofun⟩
          · exact ⟨rfl, fun _ => huse.1⟩
          · exact ⟨rfl, nofun⟩
      | buffered m => exact replyOf_mapMessages m command hm

theorem cmdSync_sound (cm : Option (Manager S)) (command : MasterCommand) :
    (cmdSync cm command).Sound command := by
  unfold cmdSync
  cases hreply : cm.bind (Manager.sendSync command) with
  | none => exact refusal_sound command
  | some reply =>
      obtain ⟨m, -, hm⟩ := Option.bind_eq_some_iff.1 hreply
      have hflag (p : Prop) [Decidable p] : (command.useCache && decide p) = true →
          command.useCache = true := fun huse => (Bool.and_eq_true_iff.1 huse).1
      cases m with
      | unbuffered instanceID version attached =>
          simp only [Manager.sendSync] at hm
          split_ifs at hm
          obtain rfl := Option.some.inj hm
          exact ⟨rfl, hflag _⟩
      | buffered m =>
          obtain rfl := Option.some.inj hm
          exact ⟨rfl, hflag _⟩

namespace Store

variable {st st' : Store}

/-- The number of outstanding requests that have pinned an item. -/
def pins (st : Store) (id : ℕ) : ℕ :=
  st.requests.countP (fun r => r.command.objectID = id ∧ r.command.useCache = true)

structure Balanced (st : Store) : Prop where
  ids : (st.requests.map Request.requestID).Nodup
  sound : ∀ r ∈ st.requests, ∀ reply ∈ r.reply, reply.Sound r.command
  cache : ∀ c ∈ st.cache, c.Pinned st.pins
  disabled : st.cache = none → ∀ r ∈ st.requests, r.command.useCache = false

theorem pins_append (requests : List Request) (cache cache' : Option InstanceCache) (r : Request) :
    pins ⟨cache', requests ++ [r]⟩ = Function.update (pins ⟨cache, requests⟩) r.command.objectID
      (pins ⟨cache, requests⟩ r.command.objectID + if r.command.useCache then 1 else 0) := by
  funext id
  unfold pins
  rw [List.countP_append, List.countP_singleton]
  rcases eq_or_ne id r.command.objectID with rfl | hne
  · rw [Function.update_self]
    cases r.command.useCache <;> simp
  · rw [Function.update_of_ne hne]
    simp [hne.symm]

theorem pins_filter (h : (st.requests.map Request.requestID).Nodup) {requestID : ℕ} {r : Request}
    (hr : st.find requestID = some r) (cache : Option InstanceCache) :
    pins ⟨cache, st.requests.filter (fun r => r.requestID ≠ requestID)⟩ =
      Function.update st.pins r.command.objectID
        (st.pins r.command.objectID - if r.command.useCache then 1 else 0) := by
  have hid : r.requestID = requestID := Keyed.key_of_lookup hr
  obtain ⟨xs, ys, hsplit⟩ := List.append_of_mem (Keyed.mem_of_lookup hr)
  rw [hsplit] at h
  funext id
  unfold pins
  rw [hsplit, ← hid, Keyed.filter_append_cons h]
  rcases eq_or_ne id r.command.objectID with rfl | hne
  · rw [Function.update_self, List.countP_append, List.countP_append, List.countP_cons]
    cases r.command.useCache <;> simp
  · rw [Function.update_of_ne hne, List.countP_append, List.countP_append, List.countP_cons]
    simp [hne.symm]

theorem Balanced.append (h : st.Balanced) {r : Request} (hfresh : st.find r.requestID = none)
    (hreply : r.reply = none) {cache : Option InstanceCache}
    (hcache : ∀ c ∈ cache, c.Pinned (Function.update st.pins r.command.objectID
      (st.pins r.command.objectID + if r.command.useCache then 1 else 0)))
    (hdisabled : cache = none → st.cache = none ∧ r.command.useCache = false) :
    Balanced ⟨cache, st.requests ++ [r]⟩ := by
  refine ⟨?_, fun r' hr' => ?_, fun c hc => ?_, fun hnone r' hr' => ?_⟩
  · rw [List.map_append, List.map_singleton]
    refine List.nodup_append.2 ⟨h.ids, List.nodup_singleton _, fun id hid id' hid' he => ?_⟩
    rw [he, List.mem_singleton.1 hid'] at hid
    exact Keyed.lookup_eq_none_iff.1 hfresh hid
  · rcases List.mem_append.1 hr' with hr' | hr'
    · exact h.sound r' hr'
    · rw [List.mem_singleton.1 hr', hreply]
      exact nofun
  · rw [pins_append st.requests st.cache]
    exact hcache c hc
  · obtain ⟨hnone, huse⟩ := hdisabled hnone
    rcases List.mem_append.1 hr' with hr' | hr'
    · exact h.disabled hnone r' hr'
    · rwa [List.mem_singleton.1 hr']

theorem Balanced.mapNB (h : st.Balanced) {requestID : ℕ} (hfresh : st.find requestID = none)
    (id master version maxVersion instanceID : ℕ) :
    (st.mapNB requestID id master version maxVersion instanceID).Balanced := by
  unfold Store.mapNB
  cases hcache : st.cache with
  | none =>
      refine h.append (r := request false requestID id master version maxVersion instanceID false
        none) hfresh rfl (fun c hc => nomatch hc) (fun _ => ⟨hcache, rfl⟩)
  | some c =>
      have hpin := (h.cache c hcache).access_update id
      refine h.append (r := request false requestID id master version maxVersion instanceID
        ((c.access id).1.map Item.cachedRange).isSome ((c.access id).1.map Item.cachedRange))
        hfresh rfl (fun c' hc' => ?_) nofun
      rw [← Option.some.inj hc']
      simpa only [request, Option.isSome_map] using hpin

theorem Balanced.startSync (h : st.Balanced) {requestID : ℕ} (hfresh : st.find requestID = none)
    (id master instanceID : ℕ) (order : List ℕ) :
    (st.startSync requestID id master instanceID order).Balanced := by
  unfold Store.startSync
  cases hcache : st.cache with
  | none =>
      refine h.append (r := request true requestID id master 0xfffffffffffffffb 0 instanceID false
        none) hfresh rfl (fun c hc => nomatch hc) (fun _ => ⟨hcache, rfl⟩)
  | some c =>
      have hpin := (h.cache c hcache).access_update id
      cases hfound : (c.access id).1 with
      | none =>
          simp only [checkInstanceCache, hfound, Option.map_none, Option.isSome_none,
            Option.any_none, Bool.false_and, Bool.false_eq_true, if_false] at hpin ⊢
          exact h.append (r := request true requestID id master 0xfffffffffffffffb 0 instanceID
            false none) hfresh rfl (fun c' hc' => Option.some.inj hc' ▸ hpin) nofun
      | some i =>
          simp only [checkInstanceCache, hfound, Option.map_some, Option.isSome_some,
            Option.any_some, Bool.true_and, if_true] at hpin ⊢
          by_cases hmatch : instanceID = instanceAll ∨ instanceID = i.cachedRange.2.2
          · simp only [decide_eq_true hmatch, Bool.not_true, Bool.false_eq_true, if_false]
            exact h.append (r := request true requestID id master 0xfffffffffffffffb 0 instanceID
              true (some i.cachedRange)) hfresh rfl (fun c' hc' => Option.some.inj hc' ▸ hpin) nofun
          · have hone : 1 ≤ Function.update st.pins id (st.pins id + 1) id := by
              rw [Function.update_self]
              omega
            have hrelease := hpin.release Nat.one_pos hone order
            rw [Function.update_self, Function.update_idem, Nat.add_sub_cancel] at hrelease
            simp only [decide_eq_false hmatch, Bool.not_false, if_true]
            exact h.append (r := request true requestID id master 0xfffffffffffffffb 0 instanceID
              false (some i.cachedRange)) hfresh rfl
              (fun c' hc' => Option.some.inj hc' ▸ hrelease) nofun

theorem Balanced.reply (h : st.Balanced) {requestID : ℕ} {r : Request}
    (hr : st.find requestID = some r) {reply : Reply} (hsound : reply.Sound r.command) :
    Balanced { st with
      requests := Keyed.update Request.requestID requestID
        (fun r => { r with reply := some reply }) st.requests } := by
  have hpins : pins ⟨st.cache, Keyed.update Request.requestID requestID
      (fun r => { r with reply := some reply }) st.requests⟩ = st.pins := by
    funext id
    unfold pins Keyed.update
    rw [List.countP_map]
    refine List.countP_congr (fun r' _ => ?_)
    simp only [Function.comp_apply]
    split_ifs <;> rfl
  refine ⟨?_, fun r' hr' => ?_, fun c hc => ?_, fun hnone r' hr' => ?_⟩
  · have hids : (Keyed.update Request.requestID requestID (fun r => { r with reply := some reply })
        st.requests).map Request.requestID = st.requests.map Request.requestID :=
      Keyed.map_update (fun _ _ _ => rfl)
    exact hids ▸ h.ids
  · rcases Keyed.mem_update hr' with ⟨hr', -⟩ | ⟨r'', hr'', hid, rfl⟩
    · exact h.sound r' hr'
    · obtain rfl := Keyed.eq_of_lookup h.ids hr hr'' hid
      intro reply' hreply'
      rwa [← Option.some.inj hreply']
  · rw [hpins]
    exact h.cache c hc
  · rcases Keyed.mem_update hr' with ⟨hr', -⟩ | ⟨r'', hr'', -, rfl⟩
    · exact h.disabled hnone r' hr'
    · exact h.disabled hnone r'' hr''

theorem Balanced.answer (h : st.Balanced) {requestID : ℕ} {cm : Option (Manager S)}
    (hs : st.answer requestID cm = some st') : st'.Balanced := by
  unfold Store.answer at hs
  split at hs
  · cases hs
  next r hr =>
  by_cases hreply : r.reply.isSome = true
  · rw [if_pos hreply] at hs
    cases hs
  · rw [if_neg hreply] at hs
    obtain rfl := Option.some.inj hs
    refine h.reply hr ?_
    split_ifs
    · exact cmdSync_sound cm r.command
    · exact cmdMap_sound cm r.command

theorem pinned_handleReply {c : InstanceCache} {pins : ℕ → ℕ} (h : c.Pinned pins)
    {command : MasterCommand} {reply : Reply} (hsound : reply.Sound command)
    (hpins : command.useCache = true → 0 < pins command.objectID) (order : List ℕ) :
    (handleReply c command.objectID reply order).Pinned
      (Function.update pins command.objectID
        (pins command.objectID - if command.useCache then 1 else 0)) := by
  obtain ⟨hrelease, huse⟩ := hsound
  have hone (hcommand : command.useCache = true) :
      (c.release command.objectID 1 order).2.Pinned (Function.update pins command.objectID
        (pins command.objectID - if command.useCache then 1 else 0)) := by
    rw [if_pos hcommand]
    exact h.release Nat.one_pos (hpins hcommand) order
  have hnone (hcommand : command.useCache = false) : c.Pinned (Function.update pins
      command.objectID (pins command.objectID - if command.useCache then 1 else 0)) := by
    rw [hcommand]
    simpa using h
  have htaken : command.useCache = true →
      pins command.objectID - (if command.useCache then 1 else 0) = pins command.objectID - 1 :=
    fun hcommand => by rw [if_pos hcommand]
  unfold handleReply
  generalize pins command.objectID - (if command.useCache then 1 else 0) = left at *
  split_ifs with hresult hcache hreleased hreleased
  · have hcommand := huse hcache
    have hpos := hpins hcommand
    have hpin := h.access_update command.objectID
    have hsome : (c.access command.objectID).1.isSome = true := by
      rw [← h.access command.objectID, InstanceCache.accessOf] at hpos
      unfold InstanceCache.access
      split
      · next hfind =>
        rw [hfind] at hpos
        cases hpos
      · rfl
    rw [if_pos hsome] at hpin
    have htwo : 2 ≤ Function.update pins command.objectID (pins command.objectID + 1)
        command.objectID := by
      rw [Function.update_self]
      omega
    have hdone := hpin.release Nat.two_pos htwo order
    rw [Function.update_self, Function.update_idem] at hdone
    rw [htaken hcommand]
    exact hdone
  · exact hone (hrelease.symm.trans hreleased)
  · exact hnone (hrelease.symm.trans (by simpa using hreleased))
  · exact hone (hrelease.symm.trans hreleased)
  · exact hnone (hrelease.symm.trans (by simpa using hreleased))

theorem Balanced.deliver (h : st.Balanced) {requestID : ℕ} {order : List ℕ}
    (hs : st.deliver requestID order = some st') : st'.Balanced := by
  unfold Store.deliver at hs
  split at hs
  · cases hs
  next r hr =>
  split at hs
  · cases hs
  next reply hreply =>
  obtain rfl := Option.some.inj hs
  have hmem : r ∈ st.requests := Keyed.mem_of_lookup hr
  refine ⟨h.ids.sublist (List.filter_sublist.map _),
    fun r' hr' => h.sound r' (List.mem_of_mem_filter hr'), fun c hc => ?_, fun hnone r' hr' => ?_⟩
  · obtain ⟨c', hc', rfl⟩ := Option.map_eq_some_iff.1 hc
    rw [pins_filter h.ids hr]
    refine pinned_handleReply (h.cache c' hc') (h.sound r hmem reply hreply) (fun huse => ?_) order
    exact List.countP_pos_iff.2 ⟨r, hmem, by simp [huse]⟩
  · exact h.disabled (Option.map_eq_none_iff.1 hnone) r' (List.mem_of_mem_filter hr')

theorem Balanced.map_cache (h : st.Balanced) {f : InstanceCache → InstanceCache}
    (hf : ∀ c, c.Pinned st.pins → (f c).Pinned st.pins) :
    Balanced { st with cache := st.cache.map f } := by
  refine ⟨h.ids, h.sound, fun c hc => ?_, fun hnone => h.disabled (Option.map_eq_none_iff.1 hnone)⟩
  obtain ⟨c', hc', rfl⟩ := Option.map_eq_some_iff.1 hc
  exact hf c' (h.cache c' hc')

/-- No node disconnects while it owes the reply to a request that has pinned an item. -/
def Answered (st : Store) : StoreOp S → Prop
  | .disconnect node => ∀ r ∈ st.requests, r.master = node → r.command.useCache = false
  | _ => True

instance (st : Store) : (op : StoreOp S) → Decidable (st.Answered op)
  | .map _ _ _ _ _ _ => isTrue trivial
  | .sync _ _ _ _ _ => isTrue trivial
  | .answer _ _ => isTrue trivial
  | .deliver _ _ => isTrue trivial
  | .add _ _ _ _ => isTrue trivial
  | .erase _ => isTrue trivial
  | .expire _ _ => isTrue trivial
  | .disconnect _ => inferInstanceAs (Decidable (∀ r ∈ st.requests, _ → _))

theorem Balanced.disconnect (h : st.Balanced) {node : ℕ}
    (hanswered : ∀ r ∈ st.requests, r.master = node → r.command.useCache = false) :
    (st.disconnect node).Balanced := by
  have hpins : (st.disconnect node).pins = st.pins := by
    funext id
    unfold Store.disconnect pins
    rw [List.countP_filter]
    refine List.countP_congr (fun r hr => ?_)
    have hr' := hanswered r hr
    simp only [Bool.and_eq_true, decide_eq_true_eq]
    constructor
    · exact fun hp => hp.1
    · refine fun hp => ⟨hp, fun hmaster => ?_⟩
      rw [hr' hmaster] at hp
      exact absurd hp.2 (by decide)
  refine ⟨h.ids.sublist (List.filter_sublist.map _),
    fun r hr => h.sound r (List.mem_of_mem_filter hr), fun c hc => ?_,
    fun hnone r hr => h.disabled (Option.map_eq_none_iff.1 hnone) r (List.mem_of_mem_filter hr)⟩
  rw [hpins]
  obtain ⟨c', hc', rfl⟩ := Option.map_eq_some_iff.1 hc
  exact (h.cache c' hc').remove node

theorem Balanced.step (h : st.Balanced) {op : StoreOp S} (hanswered : st.Answered op)
    (hs : st.step op = some st') : st'.Balanced := by
  cases op with
  | map requestID id master version maxVersion instanceID =>
      simp only [Store.step] at hs
      split_ifs at hs with hfresh
      obtain rfl := Option.some.inj hs
      exact h.mapNB (by simpa using hfresh) id master version maxVersion instanceID
  | sync requestID id master instanceID order =>
      simp only [Store.step] at hs
      split_ifs at hs with hfresh
      obtain rfl := Option.some.inj hs
      exact h.startSync (by simpa using hfresh) id master instanceID order
  | answer requestID cm => exact h.answer hs
  | deliver requestID order => exact h.deliver hs
  | add chunk usage now order =>
      obtain rfl := Option.some.inj hs
      exact h.map_cache (fun c hc => hc.add chunk usage now order)
  | erase id =>
      obtain rfl := Option.some.inj hs
      exact h.map_cache (fun c hc => hc.erase id)
  | expire now timeout =>
      obtain rfl := Option.some.inj hs
      exact h.map_cache (fun c hc => hc.expire now timeout)
  | disconnect node =>
      obtain rfl := Option.some.inj hs
      exact h.disconnect hanswered

theorem balanced_start (sizes : Option (ℕ × ℕ)) : (start sizes).Balanced := by
  refine ⟨List.nodup_nil, (fun r hr => nomatch hr), fun c hc => ?_, fun _ r hr => nomatch hr⟩
  obtain ⟨sizes', -, rfl⟩ := Option.map_eq_some_iff.1 hc
  exact ⟨List.nodup_nil, fun _ => rfl, by simp [InstanceCache.start]⟩

/-- In every run in which no node disconnects while it owes the reply to a request that has pinned
an item, each item is pinned as often as there are outstanding requests that have pinned it, and none
was released more often than it was pinned. Without requests no item is pinned. -/
theorem pins_balanced (sizes : Option (ℕ × ℕ)) {ops : List (StoreOp S)}
    (hanswered : Machine.Steps step Answered (start sizes) ops)
    (hrun : Machine.run step (start sizes) ops = some st) {c : InstanceCache}
    (hc : st.cache = some c) :
    (∀ i ∈ c.items, i.access = st.pins i.id) ∧ Assertion.releasedPinned ∉ c.failed ∧
      (st.requests = [] → ∀ i ∈ c.items, i.access = 0) := by
  have h : st.Balanced := Machine.run_invariant Balanced
    (fun _ _ _ h hok hs => h.step hok hs) (balanced_start sizes) hanswered hrun
  have hpinned := h.cache c hc
  have haccess : ∀ i ∈ c.items, i.access = st.pins i.id := by
    intro i hi
    exact hpinned.access_eq (Keyed.lookup_of_mem hpinned.distinct hi)
  refine ⟨haccess, hpinned.failed, fun hnone i hi => ?_⟩
  rw [haccess i hi, pins, hnone]
  rfl

/-- An object in the cache is mapped, with the cached version, while it is synchronised with another
instance and with any instance, which is refused. -/
theorem pins_balanced_map_sync :
    ∃ st c, Machine.run (step (S := Unit)) (start (some (100, 80)))
        [.add ⟨1, 1, 7, 9, 0, true, 60, []⟩ 0 0 [], .map 5 1 9 1 2 3, .sync 6 1 9 8 [1],
          .sync 4 1 9 instanceAll [], .answer 5 (some (.unbuffered 7 1 true)), .answer 4 none,
          .deliver 4 [1], .answer 6 (some (.unbuffered 8 1 true)), .deliver 5 [1],
          .deliver 6 [1]] = some st ∧
      st.cache = some c ∧ st.requests = [] ∧ c.items.map Item.id = [1] ∧
      ∀ i ∈ c.items, i.access = 0 := by
  have h : (Machine.run (step (S := Unit)) (start (some (100, 80)))
        [.add ⟨1, 1, 7, 9, 0, true, 60, []⟩ 0 0 [], .map 5 1 9 1 2 3, .sync 6 1 9 8 [1],
          .sync 4 1 9 instanceAll [], .answer 5 (some (.unbuffered 7 1 true)), .answer 4 none,
          .deliver 4 [1], .answer 6 (some (.unbuffered 8 1 true)), .deliver 5 [1],
          .deliver 6 [1]]).map (fun st => (st.cache.map (fun c => c.items.map Item.id),
        decide (st.requests = []))) = some (some [1], true) := by decide +kernel
  obtain ⟨st, hrun, hst⟩ := Option.map_eq_some_iff.1 h
  obtain ⟨hcache, hrequests⟩ := Prod.mk.inj hst
  obtain ⟨c, hc, hids⟩ := Option.map_eq_some_iff.1 hcache
  have hnone : st.requests = [] := of_decide_eq_true hrequests
  have hpins := pins_balanced (some (100, 80)) (by decide +kernel) hrun hc
  exact ⟨st, c, hrun, hc, hnone, hids, hpins.2.2 hnone⟩

/-- The node of the master disconnects before it answers. -/
theorem disconnect_leaves_pin :
    ∃ st c, Machine.run (step (S := Unit)) (start (some (100, 80)))
        [.add ⟨1, 1, 7, 9, 0, true, 60, []⟩ 0 0 [], .map 5 1 9 1 2 3, .disconnect 9] = some st ∧
      st.cache = some c ∧ st.requests = [] ∧ ¬ ∀ i ∈ c.items, i.access = st.pins i.id := by
  have h : (Machine.run (step (S := Unit)) (start (some (100, 80)))
        [.add ⟨1, 1, 7, 9, 0, true, 60, []⟩ 0 0 [], .map 5 1 9 1 2 3, .disconnect 9]).map
      (fun st => (decide (st.requests = []), st.cache.map (fun c =>
        decide (∀ i ∈ c.items, i.access = st.pins i.id)))) = some (true, some false) := by
    decide +kernel
  obtain ⟨st, hrun, hst⟩ := Option.map_eq_some_iff.1 h
  obtain ⟨hrequests, hcache⟩ := Prod.mk.inj hst
  obtain ⟨c, hc, haccess⟩ := Option.map_eq_some_iff.1 hcache
  exact ⟨st, c, hrun, hc, of_decide_eq_true hrequests, of_decide_eq_false haccess⟩

end Store

end Collage.Cache
