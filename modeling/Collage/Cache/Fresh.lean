import Collage.Cache.Advertised
import Collage.Cache.Unbuffered
import Collage.Object.InOrder

/-!
# What a version of an unbuffered object stands for

The cache of a node is compared with the master by version numbers alone. As long as the data of the
current version that is in a cache or on the way is that of the object, a request that is answered
from the cache gets what it would be sent.
-/

namespace Collage.Cache

open Object

namespace Store

variable {S : Type} {st st' : Store} {id : ℕ}

theorem range_eq {range : ℕ × ℕ × ℕ} (h : (checkInstanceCache st.cache id).1 = some range) :
    ∃ streams, st.streamsOf id = some streams ∧
      range.2.1 = Unbuffered.lastVersion streams := by
  unfold checkInstanceCache at h
  cases hcache : st.cache with
  | none =>
      rw [hcache] at h
      cases h
  | some c =>
      rw [hcache] at h
      simp only [InstanceCache.access] at h
      cases hi : c.find id with
      | none =>
          rw [hi] at h
          cases h
      | some i =>
          rw [hi] at h
          refine ⟨i.versions, ?_, ?_⟩
          · rw [streamsOf, hcache, Option.bind_some, InstanceCache.streamsOf, hi, Option.map_some]
          · rw [← Option.some.inj h]
            rfl

end Store

namespace Unbuffered

/-- A copy of the instance data of the object: that of the current version is what a commit has
left. -/
structure World.Copy {S : Type} {n : ℕ} (cls : ObjectClass S) (w : World S n) (chunk : Chunk) :
    Prop where
  id : chunk.id = w.objectID
  last : chunk.isLast = true
  version : chunk.version ≤ w.master.version
  payload : w.modified = false → chunk.version = w.master.version →
    chunk.payload = cls.getInstanceData w.master.state

def Copies (C : Chunk → Prop) (s : DataStream) : Prop := ∃ chunk, s = ⟨[chunk], true⟩ ∧ C chunk

theorem Copies.isReady {C : Chunk → Prop} {s : DataStream} (h : Copies C s) :
    s.isReady = true := by
  obtain ⟨chunk, rfl, -⟩ := h
  rfl

theorem getVersion_stream (chunk : Chunk) : DataStream.getVersion ⟨[chunk], true⟩ = chunk.version :=
  rfl

theorem payload_stream (chunk : Chunk) : payload ⟨[chunk], true⟩ = chunk.payload :=
  List.append_nil _

/-- What the cache holds for a request that is answered from it. -/
structure Hit (streams : List DataStream) (isSync : Bool) (version : ℕ) (current : List UInt8) :
    Prop where
  held : ∃ s ∈ streams, s.getVersion = version
  data : ∀ s ∈ streams, s.getVersion = version → payload s = current
  last : version ≤ lastVersion streams
  sync : isSync = true → lastVersion streams = version

theorem lastVersion_eq {streams : List DataStream} {back : DataStream}
    (h : streams.getLast? = some back) : lastVersion streams = back.getVersion := by
  rw [lastVersion, h]
  rfl

theorem lastVersion_push (streams : List DataStream) (chunk : Chunk) :
    lastVersion (streams ++ [⟨[chunk], true⟩]) = chunk.version := by
  rw [lastVersion_eq List.getLast?_concat, getVersion_stream]

theorem lastVersion_lt {streams : List DataStream} (hready : ∀ s ∈ streams, s.isReady = true)
    {chunk : Chunk}
    (hnext : ∀ back ∈ streams.getLast?, back.getPendingVersion + 1 = chunk.version)
    (hstreams : streams ≠ []) : lastVersion streams + 1 = chunk.version := by
  obtain ⟨back, hback⟩ := Option.isSome_iff_exists.1 (List.getLast?_isSome.2 hstreams)
  rw [lastVersion_eq hback, Item.getVersion_of_ready (hready back (List.mem_of_getLast? hback))]
  exact hnext back hback

theorem Hit.append_version {streams : List DataStream} {isSync : Bool} {version : ℕ}
    {current : List UInt8} (h : Hit streams isSync version current)
    (hready : ∀ s ∈ streams, s.isReady = true) {chunk : Chunk}
    (hnext : ∀ back ∈ streams.getLast?, back.getPendingVersion + 1 = chunk.version)
    (htime : isSync = true → chunk.version ≤ version) :
    Hit (streams ++ [⟨[chunk], true⟩]) isSync version current := by
  obtain ⟨s, hs, hversion⟩ := h.held
  have hlt := lastVersion_lt hready hnext (List.ne_nil_of_mem hs)
  have hlast := h.last
  refine ⟨⟨s, List.mem_append_left _ hs, hversion⟩, fun t ht htversion => ?_, ?_, fun hsync => ?_⟩
  · rcases List.mem_append.1 ht with ht | ht
    · exact h.data t ht htversion
    · rw [List.mem_singleton.1 ht, getVersion_stream] at htversion
      omega
  · rw [lastVersion_push]
    omega
  · have hle := htime hsync
    omega

/-- The cache holds the last version that a request advertises, or a later one. -/
def Advertised (st : Store) (id : ℕ) (r : Request) : Prop :=
  ∃ streams, st.streamsOf id = some streams ∧ r.command.maxCachedVersion ≤ lastVersion streams

theorem advertised_request {st : Store} {id : ℕ} (isSync : Bool)
    (requestID master version maxVersion instanceID : ℕ) (useCache : Bool)
    (hsome : (checkInstanceCache st.cache id).1.isSome = true) :
    Advertised st id (Store.request isSync requestID id master version maxVersion instanceID
      useCache (checkInstanceCache st.cache id).1) := by
  obtain ⟨range, hrange⟩ := Option.isSome_iff_exists.1 hsome
  obtain ⟨streams, hstreams, hlast⟩ := Store.range_eq hrange
  refine ⟨streams, hstreams, ?_⟩
  rw [hrange, ← hlast]
  exact le_rfl

/-- The requests for the object after an operation: those before it are as they were, and a further
one advertises a version that the cache holds. -/
structure Continues (id : ℕ) (st st' : Store) : Prop where
  find : ∀ requestID r, st.find requestID = some r → r.command.objectID = id →
    st'.find requestID = some r
  requests : ∀ r ∈ st'.requests, r.command.objectID = id → r.reply = none →
    r.command.useCache = true → r ∈ st.requests ∨ Advertised st id r

namespace Continues

variable {st : Store} {id : ℕ}

theorem continues_cache (st : Store) (cache : Option InstanceCache) :
    Continues id st { st with cache := cache } :=
  ⟨fun _ _ hr _ => hr, fun _ hr _ _ _ => Or.inl hr⟩

theorem append (st : Store) (cache : Option InstanceCache) {new : Request}
    (hnew : new.command.objectID = id → new.command.useCache = true → Advertised st id new) :
    Continues id st ⟨cache, st.requests ++ [new]⟩ := by
  refine ⟨fun requestID r hr _ => ?_, fun r hr hid _ huse => ?_⟩
  · unfold Store.find Keyed.lookup at hr ⊢
    rw [List.find?_append, hr, Option.some_or]
  · rcases List.mem_append.1 hr with hr | hr
    · exact Or.inl hr
    · obtain rfl := List.mem_singleton.1 hr
      exact Or.inr (hnew hid huse)

theorem continues_update (st : Store) {requestID : ℕ} (reply : Reply)
    (hne : ∀ r ∈ st.find requestID, r.command.objectID ≠ id) :
    Continues id st { st with
      requests := Keyed.update Request.requestID requestID
        (fun r => { r with reply := some reply }) st.requests } := by
  refine ⟨fun requestID' r hr hid => ?_, fun r hr _ hnone _ => ?_⟩
  · have hother : requestID' ≠ requestID := fun he => hne r (he ▸ hr) hid
    refine Eq.trans (Keyed.lookup_update_ne ?_ hother) hr
    exact fun _ he => he
  · rcases Keyed.mem_update hr with ⟨hr, -⟩ | ⟨r', -, -, rfl⟩
    · exact Or.inl hr
    · cases hnone

theorem filter (st : Store) (cache : Option InstanceCache) {requestID : ℕ}
    (hne : ∀ r ∈ st.find requestID, r.command.objectID ≠ id) :
    Continues id st ⟨cache, st.requests.filter (fun r => r.requestID ≠ requestID)⟩ := by
  refine ⟨fun requestID' r hr hid => ?_, fun r hr _ _ _ => Or.inl (List.mem_of_mem_filter hr)⟩
  have hother : requestID' ≠ requestID := fun he => hne r (he ▸ hr) hid
  exact (Keyed.lookup_filter requestID requestID' st.requests).trans ((if_neg hother).trans hr)

end Continues

theorem continues_step {S : Type} {n : ℕ} {w : World S n} {st st' : Store} {op : StoreOp S}
    (hlocal : w.Local st op) (hs : st.step op = some st') : Continues w.objectID st st' := by
  cases op with
  | map requestID k master version maxVersion instanceID =>
      simp only [Store.step] at hs
      split_ifs at hs
      obtain rfl := Option.some.inj hs
      refine Continues.append st _ (fun hid huse => ?_)
      obtain rfl : k = w.objectID := hid
      exact advertised_request false requestID master version maxVersion instanceID _ huse
  | sync requestID k master instanceID order =>
      simp only [Store.step] at hs
      split_ifs at hs
      obtain rfl := Option.some.inj hs
      refine Continues.append st _ (fun hid huse => ?_)
      obtain rfl : k = w.objectID := hid
      exact advertised_request true requestID master 0xfffffffffffffffb 0 instanceID _
        (Option.isSome_of_any huse)
  | answer requestID cm =>
      simp only [Store.step, Store.answer] at hs
      split at hs
      · cases hs
      split_ifs at hs <;> obtain rfl := Option.some.inj hs
      · exact Continues.continues_update st _ hlocal
      · exact Continues.continues_update st _ hlocal
  | deliver requestID order =>
      simp only [Store.step, Store.deliver] at hs
      split at hs
      · cases hs
      split at hs
      · cases hs
      obtain rfl := Option.some.inj hs
      exact Continues.filter st _ hlocal
  | add chunk usage now order =>
      obtain rfl := Option.some.inj hs
      exact Continues.continues_cache st _
  | erase k =>
      obtain rfl := Option.some.inj hs
      exact Continues.continues_cache st _
  | expire now timeout =>
      obtain rfl := Option.some.inj hs
      exact Continues.continues_cache st _
  | disconnect node => exact hlocal.elim

namespace Node

variable {x : Node} {id : ℕ}

theorem receive_eq {r : Request} {reply : Reply} {version : ℕ} {current data : List UInt8}
    (hhit : reply.useCache = true → ∃ streams,
      x.store.streamsOf r.command.objectID = some streams ∧
        Hit streams r.isSync version current)
    (h : x.receive r reply version current = some data) : data = current := by
  unfold receive at h
  by_cases hresult : reply.result = false
  · rw [if_pos hresult] at h
    cases h
  rw [if_neg hresult] at h
  by_cases huse : reply.useCache = true
  · obtain ⟨streams, hstreams, hhit⟩ := hhit huse
    rw [if_pos huse, hstreams, Option.bind_some] at h
    obtain ⟨s, hs, rfl⟩ := Option.map_eq_some_iff.1 h
    cases hsync : r.isSync with
    | false =>
        rw [hsync, if_neg Bool.false_ne_true] at hs
        exact hhit.data s (List.mem_of_find?_eq_some hs) (by simpa using List.find?_some hs)
    | true =>
        rw [hsync, if_pos rfl] at hs
        refine hhit.data s (List.mem_of_getLast? hs) ?_
        rw [← lastVersion_eq hs, hhit.sync hsync]
  · rw [if_neg huse] at h
    split_ifs at h
    exact (Option.some.inj h).symm

/-- The cache of the node or a message to it has a copy. -/
def Carries (x : Node) (id : ℕ) (chunk : Chunk) : Prop :=
  (∃ c ∈ x.store.cache, ∃ i ∈ c.items, i.id = id ∧ ⟨[chunk], true⟩ ∈ i.versions) ∨
    Packet.data chunk ∈ x.inbox

/-- The reply to a sync that is answered from the cache. -/
def syncs (x : Node) (requestID : ℕ) : Bool :=
  (x.store.find requestID).any (fun r => r.isSync && r.reply.any Reply.useCache)

/-- Data of a version would overtake the reply to a sync that uses an older one from the cache. -/
def overtakes (x : Node) (v : ℕ) : Packet → Bool
  | .data _ => false
  | .reply requestID version _ => x.syncs requestID && decide (version < v)

/-- The cache holds what an answered request uses. -/
def Answered (x : Node) (id requestID version : ℕ) (current : List UInt8) : Prop :=
  ∃ r reply, x.store.find requestID = some r ∧ r.reply = some reply ∧ r.command.objectID = id ∧
    (reply.useCache = true → ∃ streams, x.store.streamsOf id = some streams ∧
      Hit streams r.isSync version current)

structure Sound (id : ℕ) (C : Chunk → Prop) (x : Node) : Prop where
  balanced : x.store.Balanced
  cached : x.store.Every id (Copies C)
  coming : ∀ chunk, Packet.data chunk ∈ x.inbox → C chunk
  ids : (x.inbox.filterMap Packet.request).Nodup
  replies : ∀ requestID version current, Packet.reply requestID version current ∈ x.inbox →
    x.Answered id requestID version current
  advertised : ∀ r ∈ x.store.requests, r.command.objectID = id → r.reply = none →
    r.command.useCache = true → Advertised x.store id r
  results : ∀ result ∈ x.results, result.data = result.current

namespace Sound

variable {C C' : Chunk → Prop} {x' : Node}

theorem mono (h : x.Sound id C) (hC : ∀ chunk, x.Carries id chunk → C chunk → C' chunk) :
    x.Sound id C' := by
  refine { h with cached := fun c hc i hi hid s hs => ?_, coming := fun chunk hchunk => ?_ }
  · obtain ⟨chunk, rfl, hcopy⟩ := h.cached c hc i hi hid s hs
    exact ⟨chunk, rfl, hC chunk (Or.inl ⟨c, hc, i, hi, hid, hs⟩) hcopy⟩
  · exact hC chunk (Or.inr hchunk) (h.coming chunk hchunk)

theorem pins_ne_zero {st : Store} {r : Request} (hr : r ∈ st.requests)
    (hid : r.command.objectID = id) (huse : r.command.useCache = true) : st.pins id ≠ 0 :=
  (List.countP_pos_iff.2 ⟨r, hr, by simp [hid, huse]⟩).ne'

theorem of_spares (h : x.Sound id C) (hbalanced : x'.store.Balanced)
    (hspares : x.store.Spares id x'.store) (hinbox : x'.inbox.Sublist x.inbox)
    (hfind : ∀ packet ∈ x'.inbox, ∀ requestID ∈ packet.request,
      x'.store.find requestID = x.store.find requestID)
    (hrequests : ∀ r ∈ x'.store.requests, r.command.objectID = id → r.reply = none →
      r.command.useCache = true → r ∈ x.store.requests ∨ Advertised x.store id r)
    (hresults : ∀ result ∈ x'.results, result.data = result.current) : x'.Sound id C where
  balanced := hbalanced
  cached := h.cached.of_spares h.balanced hspares
  coming := fun chunk hchunk => h.coming chunk (hinbox.subset hchunk)
  ids := h.ids.sublist (hinbox.filterMap _)
  replies := by
    intro requestID version current hmem
    obtain ⟨r, reply, hr, hreply, hid, hhit⟩ := h.replies requestID version current
      (hinbox.subset hmem)
    have hr' := (hfind _ hmem requestID rfl).trans hr
    refine ⟨r, reply, hr', hreply, hid, fun huse => ?_⟩
    have hsound := hbalanced.sound r (Keyed.mem_of_lookup hr') reply hreply
    rw [hspares.streamsOf h.balanced hbalanced
      (pins_ne_zero (Keyed.mem_of_lookup hr') hid (hsound.2 huse))]
    exact hhit huse
  advertised := by
    intro r hr hid hreply huse
    have hadvertised : Advertised x.store id r := (hrequests r hr hid hreply huse).elim
      (fun hold => h.advertised r hold hid hreply huse) (fun hnew => hnew)
    unfold Advertised
    rw [hspares.streamsOf h.balanced hbalanced (pins_ne_zero hr hid huse)]
    exact hadvertised
  results := hresults

theorem coming_append (h : x.Sound id C) {data : List Packet}
    (hdata : ∀ packet ∈ data, ∃ chunk, packet = .data chunk ∧ C chunk) :
    Sound id C { x with inbox := x.inbox ++ data } := by
  refine { h with coming := fun chunk hchunk => ?_, ids := ?_, replies := ?_ }
  · rcases List.mem_append.1 hchunk with hchunk | hchunk
    · exact h.coming chunk hchunk
    · obtain ⟨chunk', he, hC⟩ := hdata _ hchunk
      cases he
      exact hC
  · have hnone : data.filterMap Packet.request = [] := by
      refine List.filterMap_eq_nil_iff.2 (fun packet hpacket => ?_)
      obtain ⟨chunk, rfl, -⟩ := hdata packet hpacket
      rfl
    rw [List.filterMap_append, hnone, List.append_nil]
    exact h.ids
  · intro requestID version current hmem
    rcases List.mem_append.1 hmem with hmem | hmem
    · exact h.replies requestID version current hmem
    · obtain ⟨chunk, he, -⟩ := hdata _ hmem
      cases he

theorem reply_append (h : x.Sound id C) {requestID version : ℕ} {current : List UInt8}
    (hfresh : ∀ version current, Packet.reply requestID version current ∉ x.inbox)
    (hanswered : x.Answered id requestID version current) :
    Sound id C { x with inbox := x.inbox ++ [.reply requestID version current] } := by
  refine { h with coming := fun chunk hchunk => ?_, ids := ?_, replies := ?_ }
  · rcases List.mem_append.1 hchunk with hchunk | hchunk
    · exact h.coming chunk hchunk
    · cases List.mem_singleton.1 hchunk
  · rw [List.filterMap_append]
    refine List.nodup_append.2 ⟨h.ids, List.nodup_singleton _, fun id hid id' hid' he => ?_⟩
    obtain rfl : id' = requestID := List.mem_singleton.1 hid'
    obtain ⟨packet, hpacket, hrequest⟩ := List.mem_filterMap.1 hid
    cases packet with
    | data chunk => cases hrequest
    | reply requestID' version' current' =>
        obtain rfl : requestID' = id := Option.some.inj hrequest
        exact hfresh version' current' (he ▸ hpacket)
  · intro requestID' version' current' hmem
    rcases List.mem_append.1 hmem with hmem | hmem
    · exact h.replies requestID' version' current' hmem
    · cases List.mem_singleton.1 hmem
      exact hanswered

theorem step_of_local {S : Type} {n : ℕ} {w : World S n} (h : x.Sound w.objectID C) {op : StoreOp S}
    (hlocal : w.Local x.store op) {store : Store} (hs : x.store.step op = some store) :
    Sound w.objectID C { x with store := store } := by
  have hanswered : x.store.Answered op := by
    cases op <;> trivial
  obtain ⟨hfind, hrequests⟩ := continues_step hlocal hs
  refine h.of_spares (h.balanced.step hanswered hs) (Store.spares_step hs ?_) (List.Sublist.refl _)
    (fun packet hpacket requestID hrequest => ?_) hrequests h.results
  · rintro chunk usage now order rfl
    exact Ne.symm hlocal
  · cases packet with
    | data chunk => cases hrequest
    | reply requestID' version current =>
        obtain rfl : requestID' = requestID := Option.some.inj hrequest
        obtain ⟨r, -, hr, -, hid, -⟩ := h.replies _ _ _ hpacket
        exact (hfind _ r hr hid).trans hr.symm

theorem answer_request {S : Type} (h : x.Sound id C) {requestID : ℕ} {cm : Option (Manager S)}
    {r : Request} (hr : x.store.find requestID = some r) {store : Store}
    (hs : x.store.answer requestID cm = some store) :
    Sound id C { x with store := store } ∧
      (∀ version current, Packet.reply requestID version current ∉ x.inbox) ∧
      r.reply = none ∧ store.streamsOf id = x.store.streamsOf id ∧
      store.find requestID = some { r with
        reply := some (if r.isSync then cmdSync cm r.command else cmdMap cm r.command) } := by
  have hstep : x.store.step (.answer requestID cm) = some store := hs
  have hbalanced := h.balanced.answer hs
  unfold Store.answer at hs
  rw [hr] at hs
  simp only at hs
  by_cases hreply : r.reply.isSome = true
  · rw [if_pos hreply] at hs
    cases hs
  rw [if_neg hreply] at hs
  have hnone : r.reply = none := Option.not_isSome_iff_eq_none.1 hreply
  have hfresh : ∀ version current, Packet.reply requestID version current ∉ x.inbox := by
    intro version current hmem
    obtain ⟨r', reply, hr', hsome, -⟩ := h.replies _ _ _ hmem
    obtain rfl := Option.some.inj (hr.symm.trans hr')
    rw [hnone] at hsome
    cases hsome
  have hspares : x.store.Spares id store :=
    Store.spares_step hstep (by rintro _ _ _ _ ⟨⟩)
  obtain rfl := Option.some.inj hs
  refine ⟨h.of_spares hbalanced hspares (List.Sublist.refl _)
    (fun packet hpacket requestID' hid => ?_)
    (fun r' hr' _ hnone' _ => ?_) h.results, hfresh, hnone, rfl, ?_⟩
  · refine Keyed.lookup_update_ne (fun _ he => he) (fun he => ?_)
    cases packet with
    | data chunk => cases hid
    | reply requestID'' version current =>
        obtain rfl : requestID'' = requestID' := Option.some.inj hid
        exact hfresh version current (he ▸ hpacket)
  · rcases Keyed.mem_update hr' with ⟨hr', -⟩ | ⟨r'', -, -, rfl⟩
    · exact Or.inl hr'
    · cases hnone'
  · refine (Keyed.lookup_update_self ?_ hr).trans rfl
    exact fun _ he => he

theorem deliver_data (h : x.Sound id C)
    (hC : ∀ chunk, C chunk → chunk.id = id ∧ chunk.isLast = true) {p : ℕ} {chunk : Chunk}
    (hp : x.inbox[p]? = some (.data chunk)) {now : ℤ} {order : List ℕ} {store : Store}
    (hs : x.store.step (.add chunk 0 now order : StoreOp Unit) = some store)
    (htime : ∀ packet ∈ x.inbox, x.overtakes chunk.version packet = false) :
    Sound id C { x with store := store, inbox := x.inbox.eraseIdx p } := by
  have hcopy : C chunk := h.coming chunk (List.mem_of_getElem? hp)
  obtain ⟨hid, hlast⟩ := hC chunk hcopy
  have hbalanced : store.Balanced := h.balanced.step (by trivial) hs
  have hrequests : store.requests = x.store.requests := by rw [← Option.some.inj hs]
  have hsub := List.eraseIdx_sublist x.inbox p
  have hadd {streams : List DataStream} (hstreams : x.store.streamsOf id = some streams)
      {r : Request} (hr : r ∈ x.store.requests) (hrid : r.command.objectID = id)
      (huse : r.command.useCache = true) :
      store.streamsOf id = some streams ∨
        (store.streamsOf id = some (streams ++ [⟨[chunk], true⟩]) ∧
          ∀ back ∈ streams.getLast?, back.getPendingVersion + 1 = chunk.version) := by
    have hpins : store.pins chunk.id ≠ 0 :=
      pins_ne_zero (hrequests.symm ▸ hr) (hrid.trans hid.symm) huse
    subst hid
    rw [← hlast]
    exact h.balanced.streamsOf_add hs hbalanced hpins hstreams
      (fun s hs => (h.cached.streams hstreams s hs).isReady)
  refine ⟨hbalanced, ?_, fun chunk' hchunk' => h.coming chunk' (hsub.subset hchunk'),
    h.ids.sublist (hsub.filterMap _), fun requestID version current hmem => ?_,
    fun r hr hrid hnone huse => ?_, h.results⟩
  · refine h.cached.add h.balanced (fun _ hs => hs.isReady) hs (fun _ => ?_)
    exact ⟨chunk, by rw [hlast], hcopy⟩
  · have hmem' := hsub.subset hmem
    obtain ⟨r, reply, hr, hreply, hrid, hhit⟩ := h.replies requestID version current hmem'
    refine ⟨r, reply, ?_, hreply, hrid, fun huse => ?_⟩
    · rw [Store.find, hrequests]
      exact hr
    · obtain ⟨streams, hstreams, hhit⟩ := hhit huse
      have hrmem := Keyed.mem_of_lookup hr
      have hcommand := (h.balanced.sound r hrmem reply hreply).2 huse
      rcases hadd hstreams hrmem hrid hcommand with hsame | ⟨hpush, hnext⟩
      · exact ⟨streams, hsame, hhit⟩
      · refine ⟨_, hpush, hhit.append_version
          (fun s hs => (h.cached.streams hstreams s hs).isReady) hnext (fun hsync => ?_)⟩
        have hlate := htime _ hmem'
        simp only [overtakes, syncs, hr, hreply, Option.any_some, hsync, huse, Bool.true_and,
          decide_eq_false_iff_not, not_lt] at hlate
        exact hlate
  · rw [hrequests] at hr
    obtain ⟨streams, hstreams, hle⟩ := h.advertised r hr hrid hnone huse
    rcases hadd hstreams hr hrid huse with hsame | ⟨hpush, hnext⟩
    · exact ⟨streams, hsame, hle⟩
    · refine ⟨_, hpush, hle.trans ?_⟩
      rw [lastVersion_push]
      rcases eq_or_ne streams [] with rfl | hne
      · exact Nat.zero_le _
      · exact (lastVersion_lt (fun s hs => (h.cached.streams hstreams s hs).isReady) hnext hne ▸
          Nat.le_succ _)

theorem deliver_reply (h : x.Sound id C) {p requestID version : ℕ} {current : List UInt8}
    (hp : x.inbox[p]? = some (.reply requestID version current)) {order : List ℕ} {store : Store}
    (hs : x.store.deliver requestID order = some store) :
    Sound id C
      { store := store
        inbox := x.inbox.eraseIdx p
        results := x.results ++ x.complete requestID version current } := by
  have hmem : Packet.reply requestID version current ∈ x.inbox := List.mem_of_getElem? hp
  obtain ⟨r, reply, hr, hreply, hid, hhit⟩ := h.replies _ _ _ hmem
  have hstep : x.store.step (.deliver requestID order : StoreOp Unit) = some store := hs
  have hstore : store.requests = x.store.requests.filter (fun r => r.requestID ≠ requestID) := by
    unfold Store.deliver at hs
    rw [hr] at hs
    simp only [hreply] at hs
    rw [← Option.some.inj hs]
  have hother : ∀ packet ∈ x.inbox.eraseIdx p, packet.request ≠ some requestID := by
    intro packet hpacket hrequest
    obtain ⟨i, hip, hi⟩ := List.mem_eraseIdx_iff_getElem?.1 hpacket
    obtain ⟨hlen, rfl⟩ := List.getElem?_eq_some_iff.1 hi
    obtain ⟨hlen', hreplied⟩ := List.getElem?_eq_some_iff.1 hp
    have hne := List.pairwise_filterMap.1 h.ids
    rcases Nat.lt_or_gt_of_ne hip with hlt | hlt
    · exact List.pairwise_iff_getElem.1 hne i p hlen hlen' hlt _ hrequest _
        (hreplied ▸ rfl) rfl
    · exact List.pairwise_iff_getElem.1 hne p i hlen' hlen hlt _ (hreplied ▸ rfl) _ hrequest rfl
  refine h.of_spares (h.balanced.deliver hs) (Store.spares_step hstep (fun _ _ _ _ he => nomatch he))
    (List.eraseIdx_sublist _ _) (fun packet hpacket requestID' hrequest => ?_)
    (fun r' hr' _ _ _ => ?_) (fun result hresult => ?_)
  · have hne : requestID' ≠ requestID := fun he => hother packet hpacket (he ▸ hrequest)
    unfold Store.find
    rw [hstore, Keyed.lookup_filter, if_neg hne]
  · rw [hstore] at hr'
    exact Or.inl (List.mem_of_mem_filter hr')
  · rcases List.mem_append.1 hresult with hresult | hresult
    · exact h.results result hresult
    · unfold complete at hresult
      rw [hr, Option.bind_some, hreply, Option.bind_some, Option.mem_toList] at hresult
      obtain ⟨data, hdata, rfl⟩ := Option.map_eq_some_iff.1 hresult
      exact receive_eq (fun huse => hid ▸ hhit huse) hdata

end Sound

/-- The node has no data of a version and gets none. -/
def Lacks (x : Node) (id v : ℕ) : Prop :=
  (∀ c ∈ x.store.cache, ∀ i ∈ c.items, i.id = id → ∀ s ∈ i.versions, s.getPendingVersion ≠ v) ∧
    ∀ packet ∈ x.inbox, ∀ chunk ∈ packet.chunk, chunk.version ≠ v

instance (x : Node) (id v : ℕ) : Decidable (x.Lacks id v) := inferInstanceAs (Decidable (_ ∧ _))

theorem Lacks.version_ne {v : ℕ} (h : x.Lacks id v) {chunk : Chunk}
    (hcarries : x.Carries id chunk) : chunk.version ≠ v := by
  rcases hcarries with ⟨c, hc, i, hi, hid, hs⟩ | hmem
  · exact h.1 c hc i hi hid _ hs
  · exact h.2 _ hmem chunk rfl

end Node

namespace World

variable {S : Type} {n : ℕ} {cls : ObjectClass S} {w w' : World S n}

/-- The versions that a request advertises include that of the master. -/
def Matches (w : World S n) (r : Request) : Prop :=
  r.command.useCache = true ∧ r.command.masterInstanceID = w.master.instanceID ∧
    (r.isSync = true → r.command.maxCachedVersion = w.master.version) ∧
    (r.isSync = false → r.command.requestedVersion ≠ versionNone ∧
      r.command.minCachedVersion ≤ w.master.version ∧
      w.master.version ≤ r.command.maxCachedVersion)

instance (r : Request) : Decidable (w.Matches r) := inferInstanceAs (Decidable (_ ∧ _))

def Advances (cls : ObjectClass S) (w : World S n) : Prop :=
  cls.isDirty (w.master.history w.master.version) w.master.state = true ∧ w.master.slaves ≠ [] ∧
    cls.pack (w.master.history w.master.version) w.master.state ≠ [] ∧
    Stream.EndsInTime cls.objectBufferSize
      (cls.packWrites (w.master.history w.master.version) w.master.state)

instance : Decidable (w.Advances cls) := inferInstanceAs (Decidable (_ ∧ _))

/-- A commit of a modified object makes a new version, unless no node has data of the current one.
No request is answered from the cache while the object has changes that are not committed, and the
instance data that is sent for the others ends in time. No data of a later version overtakes the
reply to a sync. -/
def Coherent (cls : ObjectClass S) (w : World S n) : Event S n → Prop
  | .commit => w.modified = true →
      w.Advances cls ∨ ∀ k, (w.nodes k).Lacks w.objectID w.master.version
  | .serve k requestID _ _ => ∀ r ∈ (w.nodes k).store.find requestID,
      r.command.objectID = w.objectID →
        if w.Matches r then w.modified = false
        else Stream.EndsInTime cls.objectBufferSize (cls.instanceWrites w.master.state)
  | .deliver k p _ _ => ∀ arrived ∈ (w.nodes k).inbox[p]?, ∀ chunk ∈ arrived.chunk,
      ∀ packet ∈ (w.nodes k).inbox, (w.nodes k).overtakes chunk.version packet = false
  | _ => True

instance : (e : Event S n) → Decidable (w.Coherent cls e)
  | .modify _ => isTrue trivial
  | .commit => inferInstanceAs (Decidable (w.modified = true → _))
  | .act _ _ => isTrue trivial
  | .serve k requestID _ _ =>
      inferInstanceAs (Decidable (∀ r ∈ (w.nodes k).store.find requestID, _))
  | .deliver k p _ _ => inferInstanceAs (Decidable (∀ arrived ∈ (w.nodes k).inbox[p]?, _))
  | .unmap _ _ => isTrue trivial
  | .limit _ _ _ => isTrue trivial

theorem matches_of_useCache {r : Request} (h : (w.replyTo r).useCache = true) : w.Matches r := by
  unfold replyTo manager at h
  cases hsync : r.isSync with
  | true =>
      rw [hsync, if_pos rfl] at h
      split_ifs at h with hother
      · cases h
      · simp only [cmdSync, Option.bind_some, Manager.sendSync, if_pos, Option.getD_some,
          Bool.and_eq_true, decide_eq_true_eq] at h
        exact ⟨h.1, h.2.1, fun _ => h.2.2, fun hmap => absurd hsync (by rw [hmap]; decide)⟩
  | false =>
      rw [hsync, if_neg Bool.false_ne_true, if_neg (fun hother => Bool.false_ne_true hother.1)] at h
      simp only [cmdMap, Option.bind_some, Manager.addSlave] at h
      split_ifs at h with hnone hmatch
      · cases h
      · exact ⟨hmatch.1, hmatch.2.1, fun hmap => absurd hsync (by rw [hmap]; decide),
          fun _ => ⟨hnone, hmatch.2.2⟩⟩
      · cases h

theorem frame_removeSlave (m : MasterCM S) (node instanceID : ℕ) :
    (m.removeSlave node instanceID).version = m.version ∧
      (m.removeSlave node instanceID).state = m.state := by
  unfold MasterCM.removeSlave
  split_ifs <;> exact ⟨rfl, rfl⟩

theorem frame_cmdMaxVersion (m : MasterCM S) (node instanceID version : ℕ) :
    (m.cmdMaxVersion node instanceID version).version = m.version ∧
      (m.cmdMaxVersion node instanceID version).state = m.state := by
  unfold MasterCM.cmdMaxVersion
  split_ifs <;> exact ⟨rfl, rfl⟩

structure Sound (cls : ObjectClass S) (w : World S n) : Prop where
  version : versionNone < w.master.version
  nodes : ∀ k, (w.nodes k).Sound w.objectID (w.Copy cls)

theorem Sound.exists_hit (h : w.Sound cls) {k : Fin n} {r : Request}
    (hr : r ∈ (w.nodes k).store.requests) (hid : r.command.objectID = w.objectID)
    (hnone : r.reply = none) (hmatches : w.Matches r) (hmodified : w.modified = false) :
    ∃ streams, (w.nodes k).store.streamsOf w.objectID = some streams ∧
      Hit streams r.isSync w.master.version (w.current cls r) := by
  obtain ⟨huse, -, hsync, hmap⟩ := hmatches
  have hx := h.nodes k
  obtain ⟨streams, hstreams, hmax⟩ := hx.advertised r hr hid hnone huse
  have hcopies : ∀ s ∈ streams, Copies (w.Copy cls) s := hx.cached.streams hstreams
  have hle : ∀ s ∈ streams, s.getVersion ≤ w.master.version := by
    intro s hs
    obtain ⟨chunk, rfl, hcopy⟩ := hcopies s hs
    exact hcopy.version
  have hversion : w.master.version ≤ r.command.maxCachedVersion := by
    cases hkind : r.isSync with
    | true => exact (hsync hkind).ge
    | false => exact (hmap hkind).2.2
  have hcurrent : w.current cls r = cls.getInstanceData w.master.state :=
    if_neg (fun hempty => (hmap hempty.1).1 hempty.2)
  cases hback : streams.getLast? with
  | none =>
      have hzero : lastVersion streams = versionNone := by rw [lastVersion, hback]; rfl
      have hpos := h.version
      omega
  | some back =>
      have hmem := List.mem_of_getLast? hback
      have hlast := lastVersion_eq hback
      have hbackLe := hle back hmem
      refine ⟨streams, hstreams, ⟨back, hmem, by omega⟩, fun s hs hsversion => ?_, by omega,
        fun _ => by omega⟩
      obtain ⟨chunk, rfl, hcopy⟩ := hcopies s hs
      rw [payload_stream, hcurrent]
      exact hcopy.payload hmodified hsversion

theorem Sound.congr (h : w.Sound cls) (hid : w'.objectID = w.objectID)
    (hnodes : w'.nodes = w.nodes) (hversion : w.master.version ≤ w'.master.version)
    (hcopy : ∀ k chunk, (w.nodes k).Carries w.objectID chunk → w.Copy cls chunk →
      w'.modified = false → chunk.version = w'.master.version →
        chunk.payload = cls.getInstanceData w'.master.state) : w'.Sound cls := by
  refine ⟨h.version.trans_le hversion, fun k => ?_⟩
  rw [hnodes, hid]
  refine (h.nodes k).mono (fun chunk hcarries hchunk => ?_)
  exact ⟨hchunk.id.trans hid.symm, hchunk.last, hchunk.version.trans hversion,
    hcopy k chunk hcarries hchunk⟩

theorem Sound.modify (h : w.Sound cls) (s : S) :
    Sound cls { w with
      master := { w.master with state := s }
      modified := w.modified ||
        decide (cls.getInstanceData s ≠ cls.getInstanceData w.master.state) } := by
  refine h.congr rfl rfl le_rfl (fun k chunk _ hcopy hmodified hversion => ?_)
  obtain ⟨hclean, hsame⟩ := Bool.or_eq_false_iff.1 hmodified
  rw [hcopy.payload hclean hversion]
  exact (not_not.1 (of_decide_eq_false hsame)).symm

theorem Sound.commit_kept (h : w.Sound cls) (hok : w.Coherent cls .commit)
    (hkept : ¬ w.Advances cls) : Sound cls { w with modified := false } := by
  refine h.congr rfl rfl le_rfl (fun k chunk hcarries hcopy _ hversion => ?_)
  cases hmodified : w.modified with
  | false => exact hcopy.payload hmodified hversion
  | true =>
      have hlacks := (hok hmodified).resolve_left hkept k
      exact absurd hversion (hlacks.version_ne hcarries)

theorem Sound.commit (h : w.Sound cls) (hok : w.Coherent cls .commit)
    (hs : w.commit cls = some w') : w'.Sound cls := by
  unfold World.commit at hs
  split_ifs at hs with hclean hwait
  · obtain rfl := Option.some.inj hs
    exact h.commit_kept hok (fun hadvances => Bool.false_ne_true (hclean.symm.trans hadvances.1))
  · obtain rfl := Option.some.inj hs
    unfold MasterCM.commitUnbuffered
    by_cases hslaves : w.master.slaves = []
    · rw [if_pos hslaves]
      exact h.commit_kept hok (fun hadvances => hadvances.2.1 hslaves)
    rw [if_neg hslaves]
    by_cases hdelta : cls.packSent (w.master.history w.master.version) w.master.state = true
    · simp only [if_pos hdelta]
      refine h.congr rfl rfl (Nat.le_succ _) (fun k chunk _ hcopy _ hversion => ?_)
      have hle := hcopy.version
      simp only at hversion
      omega
    · simp only [if_neg hdelta]
      exact h.commit_kept hok (fun hadvances => hdelta (cls.packSent_iff.2 hadvances.2.2))

theorem Sound.of_nodes (h : w.Sound cls) (hid : w'.objectID = w.objectID)
    (hversion : w'.master.version = w.master.version) (hstate : w'.master.state = w.master.state)
    (hmodified : w'.modified = w.modified)
    (hnodes : ∀ k, (w'.nodes k).Sound w.objectID (w.Copy cls)) : w'.Sound cls := by
  refine ⟨hversion.symm ▸ h.version, fun k => ?_⟩
  rw [hid]
  refine (hnodes k).mono (fun chunk _ hcopy => ⟨hcopy.id.trans hid.symm, hcopy.last, ?_, ?_⟩)
  · rw [hversion]
    exact hcopy.version
  · rw [hversion, hstate, hmodified]
    exact hcopy.payload

theorem Sound.setNode (h : w.Sound cls) (k : Fin n) {x : Node}
    (hx : x.Sound w.objectID (w.Copy cls)) : (w.setNode k x).Sound cls := by
  refine h.of_nodes rfl rfl rfl rfl (fun j => ?_)
  change (Function.update w.nodes k x j).Sound w.objectID (w.Copy cls)
  rcases eq_or_ne j k with rfl | hne
  · rw [Function.update_self]
    exact hx
  · rw [Function.update_of_ne hne]
    exact h.nodes j

theorem copy_chunk {cls : ObjectClass S} {w : World S n} (size : ℕ)
    (hne : cls.getInstanceData w.master.state ≠ [])
    (hends : Stream.EndsInTime cls.objectBufferSize (cls.instanceWrites w.master.state)) :
    w.Copy cls (w.chunk cls size) :=
  ⟨rfl, Stream.ObjectDataOStream.hasSentData_iff.2 ⟨hne, hends⟩, le_rfl, fun _ _ => rfl⟩

theorem not_matches_of_data {r : Request} (hresult : (w.replyTo r).result = true)
    (huse : (w.replyTo r).useCache = false) : ¬ w.Matches r := by
  rintro ⟨hcommand, hinstance, hsync, hmap⟩
  unfold replyTo manager at hresult huse
  cases hkind : r.isSync with
  | true =>
      rw [hkind, if_pos rfl] at hresult huse
      split_ifs at hresult huse with hother
      · cases hresult
      · simp [cmdSync, Manager.sendSync, hcommand, hinstance, hsync hkind] at huse
  | false =>
      obtain ⟨hnone, hmin, hmax⟩ := hmap hkind
      rw [hkind, if_neg Bool.false_ne_true,
        if_neg (fun hother => Bool.false_ne_true hother.1)] at huse
      simp [cmdMap, Manager.addSlave, hcommand, hinstance, hnone, hmin, hmax] at huse

theorem Sound.serve (h : w.Sound cls) {k : Fin n} {requestID size : ℕ} {others : List (Fin n)}
    (hok : w.Coherent cls (.serve k requestID size others))
    (hs : w.serve cls k requestID size others = some w') : w'.Sound cls := by
  unfold World.serve at hs
  split at hs
  · cases hs
  next r hr =>
  by_cases hid : r.command.objectID = w.objectID
  swap
  · rw [if_pos hid] at hs
    cases hs
  rw [if_neg (not_not.2 hid)] at hs
  obtain ⟨store, hstore, rfl⟩ := Option.map_eq_some_iff.1 hs
  obtain ⟨hanswer, hfresh, hnone, hstreams, hfind⟩ := (h.nodes k).answer_request hr hstore
  have hdata : ∀ packet ∈ w.dataFor cls r size,
      ∃ chunk, packet = Packet.data chunk ∧ w.Copy cls chunk := by
    intro packet hpacket
    unfold dataFor at hpacket
    split_ifs at hpacket with hsends
    · obtain ⟨hresult, huse, hne⟩ := hsends
      have hends := hok r hr hid
      rw [if_neg (not_matches_of_data hresult huse)] at hends
      refine ⟨_, List.mem_singleton.1 hpacket, copy_chunk size (fun hnil => hne ?_) hends⟩
      rw [current, hnil, ite_self]
    · cases hpacket
  have hreplied : Node.Answered
      { w.nodes k with store := store, inbox := (w.nodes k).inbox ++ w.dataFor cls r size }
      w.objectID requestID w.master.version (w.current cls r) := by
    refine ⟨_, w.replyTo r, hfind, rfl, hid, fun huse => ?_⟩
    have hmatches := matches_of_useCache huse
    have hclean := hok r hr hid
    rw [if_pos hmatches] at hclean
    have hhit := h.exists_hit (Keyed.mem_of_lookup hr) hid hnone hmatches hclean
    rwa [hstreams]
  have hnode := (hanswer.coming_append hdata).reply_append (fun version current hmem => by
    rcases List.mem_append.1 hmem with hmem | hmem
    · exact hfresh version current hmem
    · obtain ⟨chunk, he, -⟩ := hdata _ hmem
      cases he) hreplied
  refine h.of_nodes rfl ?_ ?_ rfl (fun j => ?_)
  · by_cases hsync : r.isSync = true
    · simp only [if_pos hsync]
    · simp only [if_neg hsync]
      rfl
  · by_cases hsync : r.isSync = true
    · simp only [if_pos hsync]
    · simp only [if_neg hsync]
      rfl
  · by_cases hj : j = k
    · subst hj
      simp only [if_pos]
      rw [List.append_assoc] at hnode
      exact hnode
    · simp only [if_neg hj]
      by_cases hother : j ∈ others
      · rw [if_pos hother]
        exact (h.nodes j).coming_append hdata
      · rw [if_neg hother]
        exact h.nodes j

theorem Sound.deliver (h : w.Sound cls) {k : Fin n} {p : ℕ} {now : ℤ} {order : List ℕ}
    (hok : w.Coherent cls (.deliver k p now order)) {x : Node}
    (hs : (w.nodes k).deliver p now order = some x) : x.Sound w.objectID (w.Copy cls) := by
  unfold Node.deliver at hs
  split at hs
  · cases hs
  · next chunk hp =>
    obtain ⟨store, hstore, rfl⟩ := Option.map_eq_some_iff.1 hs
    exact (h.nodes k).deliver_data (fun chunk hcopy => ⟨hcopy.id, hcopy.last⟩) hp hstore
      (hok _ hp chunk rfl)
  · next requestID version current hp =>
    obtain ⟨store, hstore, rfl⟩ := Option.map_eq_some_iff.1 hs
    exact (h.nodes k).deliver_reply hp hstore

theorem Sound.step (h : w.Sound cls) {e : Event S n} (hok : w.Coherent cls e)
    (hs : w.step cls e = some w') : w'.Sound cls := by
  cases e with
  | modify s =>
      obtain rfl := Option.some.inj hs
      exact h.modify s
  | commit => exact h.commit hok hs
  | act k op =>
      simp only [World.step] at hs
      split_ifs at hs with hlocal
      obtain ⟨store, hstore, rfl⟩ := Option.map_eq_some_iff.1 hs
      exact h.setNode k ((h.nodes k).step_of_local hlocal hstore)
  | serve k requestID size others => exact h.serve hok hs
  | deliver k p now order =>
      obtain ⟨x, hx, rfl⟩ := Option.map_eq_some_iff.1 hs
      exact h.setNode k (h.deliver hok hx)
  | unmap k instanceID =>
      obtain rfl := Option.some.inj hs
      obtain ⟨hversion, hstate⟩ := frame_removeSlave w.master k instanceID
      exact h.of_nodes rfl hversion hstate rfl h.nodes
  | limit k instanceID version =>
      obtain rfl := Option.some.inj hs
      obtain ⟨hversion, hstate⟩ := frame_cmdMaxVersion w.master k instanceID version
      exact h.of_nodes rfl hversion hstate rfl h.nodes

theorem sound_start (cls : ObjectClass S) (objectID masterNode instanceID : ℕ) (s : S)
    (sizes : Fin n → Option (ℕ × ℕ)) :
    (start cls objectID masterNode instanceID s sizes).Sound cls where
  version := Nat.one_pos
  nodes := fun k =>
    { balanced := Store.balanced_start (sizes k)
      cached := by
        intro c hc i hi
        obtain ⟨sizes', -, rfl⟩ := Option.map_eq_some_iff.1 hc
        cases hi
      coming := fun _ hmem => absurd hmem List.not_mem_nil
      ids := List.nodup_nil
      replies := fun _ _ _ hmem => absurd hmem List.not_mem_nil
      advertised := fun _ hmem => absurd hmem List.not_mem_nil
      results := fun _ hmem => absurd hmem List.not_mem_nil }

end World

end Unbuffered

end Collage.Cache
