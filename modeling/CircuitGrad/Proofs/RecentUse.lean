import Mathlib
import CircuitGrad.Proofs.ResultCache

/-! # What a least-recently-used cache holds

    A cache serves a history of look-ups, insertions and clearings, and keeps
    a queue of keys, a set of entries and counters, each with its own updates.
    What they amount to is read off the history alone.  An insertion uses its
    key, and so does a look-up that finds it.  Among the uses since the last
    clearing, only the last one of each key counts, and of those only as many
    of the latest as the bound admits: these are the keys that are held, each
    with the value last inserted for it.

    The queue carries the proof.  It repeats no key and lists the same keys as
    the entries (`LruCache.Aligned`), so the head that makes room is an entry,
    and noting a use keeps the queue equal to what the history says.
-/

namespace CircuitGrad

/-! ## Histories -/

/-- A request to a cache. -/
inductive CacheRequest (κ β : Type) where
  | get (key : κ)
  | insert (key : κ) (value : β)
  | clear

namespace CacheRequest

variable {κ β : Type}

def isGet : CacheRequest κ β → Bool
  | .get _ => true
  | _ => false

def isClear : CacheRequest κ β → Bool
  | .clear => true
  | _ => false

/-- The value that the request sets for the key. -/
def valueFor? [DecidableEq κ] (key : κ) : CacheRequest κ β → Option β
  | .insert k value => if k = key then some value else none
  | _ => none

end CacheRequest

section Histories

variable {κ β : Type} [DecidableEq κ]

namespace LruCache

/-- Serve a request; only a look-up has an answer. -/
def serve (c : LruCache κ β) : CacheRequest κ β → Option β × LruCache κ β
  | .get key => c.get key
  | .insert key value => (none, c.insert key value)
  | .clear => (none, c.clear)

/-- A cache that was new and has served a history. -/
def after (maxSize : Nat) (history : List (CacheRequest κ β)) : LruCache κ β :=
  history.foldl (fun c request => (c.serve request).2) (empty maxSize)

/-- The key that a request uses: an insertion uses its own, and so does a
    look-up that is answered. -/
def used? (c : LruCache κ β) : CacheRequest κ β → Option κ
  | .get key => if (c.get key).1.isSome then some key else none
  | .insert key _ => some key
  | .clear => none

/-- The request inserts a key that the cache does not hold. -/
def adds (c : LruCache κ β) : CacheRequest κ β → Bool
  | .insert key _ => (c.peek? key).isNone
  | _ => false

end LruCache

/-- The requests of a history, each with the cache that it meets. -/
def meetings (c : LruCache κ β) :
    List (CacheRequest κ β) → List (LruCache κ β × CacheRequest κ β)
  | [] => []
  | request :: history => (c, request) :: meetings (c.serve request).2 history

/-- The keys used since the last clearing, in the order of their uses. -/
def usesSinceClear (maxSize : Nat) (history : List (CacheRequest κ β)) : List κ :=
  ((meetings (.empty maxSize) history).rtakeWhile fun m => !m.2.isClear).filterMap
    fun m => m.1.used? m.2

/-- The distinct keys among the uses, by their last use, and of them the
    latest that a bound admits; zero is no bound. -/
def mostRecent (bound : Nat) (uses : List κ) : List κ :=
  if bound = 0 then uses.dedup else uses.dedup.rtake bound

/-- The value of the last insertion for the key. -/
def lastInserted (history : List (CacheRequest κ β)) (key : κ) : Option β :=
  (history.filterMap (·.valueFor? key)).getLast?

/-- How many look-ups there were. -/
def lookups (history : List (CacheRequest κ β)) : Nat :=
  history.countP (·.isGet)

/-- How many insertions were of a key that was not held. -/
def additions (maxSize : Nat) (history : List (CacheRequest κ β)) : Nat :=
  (meetings (.empty maxSize) history).countP fun m => m.1.adds m.2

end Histories

/-! ## The most recent keys -/

section Recency

variable {κ : Type} [DecidableEq κ] {bound : Nat} {uses : List κ} {key : κ}

theorem dedup_concat (uses : List κ) (key : κ) :
    (uses ++ [key]).dedup = uses.dedup.filter (· != key) ++ [key] := by
  induction uses with
  | nil => rfl
  | cons k uses ih =>
    rw [List.cons_append]
    by_cases hlater : k ∈ uses
    · rw [List.dedup_cons_of_mem hlater,
        List.dedup_cons_of_mem (List.mem_append_left _ hlater), ih]
    · rw [List.dedup_cons_of_notMem hlater]
      by_cases hk : k = key
      · subst hk
        have hmem : k ∈ uses ++ [k] := List.mem_append_right _ (List.mem_singleton.mpr rfl)
        rw [List.dedup_cons_of_mem hmem, ih, List.filter_cons_of_neg (by simp)]
      · have hnot : k ∉ uses ++ [key] := by simp [hlater, hk]
        rw [List.dedup_cons_of_notMem hnot, ih, List.filter_cons_of_pos (by simpa using hk),
          List.cons_append]

theorem nodup_mostRecent (bound : Nat) (uses : List κ) : (mostRecent bound uses).Nodup := by
  unfold mostRecent
  split
  · exact List.nodup_dedup uses
  · exact (List.nodup_dedup uses).sublist (List.drop_sublist _ _)

omit [DecidableEq κ] in
theorem rtake_of_length_le {keys : List κ} (h : keys.length ≤ bound) : keys.rtake bound = keys := by
  unfold List.rtake
  rw [Nat.sub_eq_zero_of_le h, List.drop_zero]

omit [DecidableEq κ] in
theorem rtake_append_of_length {pre latest : List κ} (h : latest.length = bound) :
    (pre ++ latest).rtake bound = latest := by
  unfold List.rtake
  rw [List.length_append, h, Nat.add_sub_cancel, List.drop_left]

/-- Using one of the latest keys again moves it to the end. -/
theorem rtake_use_of_mem {pre latest : List κ} (hlength : latest.length = bound)
    (hnodup : latest.Nodup) (h : key ∈ latest) :
    ((pre ++ latest).filter (· != key) ++ [key]).rtake bound =
      latest.filter (· != key) ++ [key] := by
  have hrest := List.length_erase_of_mem h
  rw [hnodup.erase_eq_filter] at hrest
  have hpositive := List.length_pos_of_mem h
  rw [List.filter_append, List.append_assoc]
  refine rtake_append_of_length ?_
  rw [List.length_append, hrest, List.length_singleton, Nat.sub_add_cancel hpositive, hlength]

/-- Using another key drops the oldest of the latest. -/
theorem rtake_use_of_notMem {pre latest : List κ} (hlength : latest.length = bound)
    (hpositive : 0 < bound) (h : key ∉ latest) :
    ((pre ++ latest).filter (· != key) ++ [key]).rtake bound =
      latest.tail.filter (· != key) ++ [key] := by
  have hkept : ∀ k ∈ latest, (k != key) = true := fun k hk => by
    simpa using fun heq : k = key => h (heq ▸ hk)
  obtain ⟨oldest, rest, rfl⟩ : ∃ oldest rest, latest = oldest :: rest :=
    List.exists_cons_of_ne_nil (List.ne_nil_of_length_pos (hlength ▸ hpositive))
  have hrest : rest.filter (· != key) = rest :=
    List.filter_eq_self.mpr fun k hk => hkept k (List.mem_cons_of_mem _ hk)
  rw [List.filter_append, List.filter_eq_self.mpr hkept, List.tail_cons, hrest,
    List.append_assoc, List.cons_append, List.append_cons]
  refine rtake_append_of_length ?_
  rw [← hlength, List.length_append, List.length_singleton, List.length_cons]

theorem mostRecent_nil (bound : Nat) : mostRecent bound ([] : List κ) = [] := by
  unfold mostRecent
  split
  · rfl
  · exact List.rtake_nil bound

/-- A use moves its key to the end; where the bound is reached and the key is
    another, the oldest one goes. -/
theorem mostRecent_concat (bound : Nat) (uses : List κ) (key : κ) :
    mostRecent bound (uses ++ [key]) =
      (if 0 < bound ∧ bound ≤ (mostRecent bound uses).length ∧ key ∉ mostRecent bound uses
        then (mostRecent bound uses).tail else mostRecent bound uses).filter (· != key) ++
        [key] := by
  unfold mostRecent
  rw [dedup_concat]
  have hnodup := List.nodup_dedup uses
  generalize uses.dedup = distinct at hnodup ⊢
  by_cases hbound : bound = 0
  · rw [if_pos hbound, if_pos hbound, if_neg fun h => h.1.ne' hbound]
  have hpositive : 0 < bound := Nat.pos_of_ne_zero hbound
  rw [if_neg hbound, if_neg hbound]
  by_cases hfull : bound ≤ distinct.length
  · have hsplit : distinct = distinct.take (distinct.length - bound) ++ distinct.rtake bound :=
      (List.take_append_drop _ _).symm
    have hlength : (distinct.rtake bound).length = bound :=
      (List.length_drop ..).trans (Nat.sub_sub_self hfull)
    have hlatest : (distinct.rtake bound).Nodup := hnodup.sublist (List.drop_sublist _ _)
    generalize distinct.rtake bound = latest at hsplit hlength hlatest ⊢
    rw [hsplit]
    by_cases hmem : key ∈ latest
    · rw [if_neg fun h => h.2.2 hmem, rtake_use_of_mem hlength hlatest hmem]
    · rw [if_pos ⟨hpositive, hlength.ge, hmem⟩, rtake_use_of_notMem hlength hpositive hmem]
  · have hle := List.length_filter_le (· != key) distinct
    rw [rtake_of_length_le (Nat.le_of_not_le hfull), if_neg fun h => hfull h.2.1]
    refine rtake_of_length_le ?_
    rw [List.length_append, List.length_singleton]
    omega

end Recency

/-! ## What every request keeps -/

section Requests

variable {κ β : Type} [DecidableEq κ] {c : LruCache κ β} {key : κ}
  {maxSize : Nat} {history : List (CacheRequest κ β)}

namespace LruCache

/-- The queue lists the keys of the entries, each once. -/
structure Aligned (c : LruCache κ β) : Prop where
  keys  : (c.entries.map Prod.fst).Perm c.queue
  nodup : c.queue.Nodup

theorem keys_without (key : κ) (entries : List (κ × β)) :
    (without key entries).map Prod.fst = (entries.map Prod.fst).filter (· != key) := by
  unfold without
  rw [List.filter_map]
  rfl

theorem isSome_peek?_iff : (c.peek? key).isSome ↔ key ∈ c.entries.map Prod.fst := by
  unfold peek?
  rw [List.lookup_isSome_iff, List.mem_map]
  simp only [beq_iff_eq, @eq_comm _ key]

theorem Aligned.isSome_peek?_iff (h : c.Aligned) : (c.peek? key).isSome ↔ key ∈ c.queue :=
  LruCache.isSome_peek?_iff.trans h.keys.mem_iff

omit [DecidableEq κ] in
theorem Aligned.size (h : c.Aligned) : c.size = c.queue.length := by
  rw [← h.keys.length_eq, List.length_map]
  rfl

theorem Aligned.isFullFor_iff (h : c.Aligned) :
    c.isFullFor key ↔ 0 < c.maxSize ∧ c.maxSize ≤ c.queue.length ∧ key ∉ c.queue := by
  unfold isFullFor
  rw [← h.isSome_peek?_iff, ← h.size]
  simp [and_assoc]

/-- The key that goes has its entry go with it. -/
theorem Aligned.evict (h : c.Aligned) : c.evict.Aligned := by
  unfold LruCache.evict
  split
  · exact h
  · next oldest rest hqueue =>
    obtain ⟨hkeys, hnodup⟩ := h
    rw [hqueue] at hkeys hnodup
    obtain ⟨holdest, hrest⟩ := List.nodup_cons.mp hnodup
    refine ⟨?_, hrest⟩
    rw [keys_without]
    refine (hkeys.filter _).trans (.of_eq ?_)
    rw [List.filter_cons_of_neg (by simp), List.filter_eq_self]
    exact fun k hk => by simpa using fun heq : k = oldest => holdest (heq ▸ hk)

/-- The cache with room for the key. -/
def withRoom (c : LruCache κ β) (key : κ) : LruCache κ β :=
  if c.isFullFor key then c.evict else c

theorem Aligned.withRoom (h : c.Aligned) (key : κ) : (c.withRoom key).Aligned := by
  unfold LruCache.withRoom
  split
  · exact h.evict
  · exact h

theorem queue_evict (c : LruCache κ β) : c.evict.queue = c.queue.tail := by
  unfold evict
  split
  · next hqueue => rw [hqueue]; rfl
  · next hqueue => rw [hqueue]; rfl

theorem Aligned.queue_withRoom (h : c.Aligned) (key : κ) :
    (c.withRoom key).queue =
      if 0 < c.maxSize ∧ c.maxSize ≤ c.queue.length ∧ key ∉ c.queue then c.queue.tail
      else c.queue := by
  unfold LruCache.withRoom
  by_cases hfull : c.isFullFor key
  · rw [if_pos hfull, if_pos (h.isFullFor_iff.mp hfull), queue_evict]
  · rw [if_neg hfull, if_neg fun hcase => hfull (h.isFullFor_iff.mpr hcase)]

theorem Aligned.mem_of_withRoom {k : κ} (h : c.Aligned) (hk : k ∈ (c.withRoom key).queue) :
    k ∈ c.queue := by
  rw [h.queue_withRoom] at hk
  split at hk
  · exact List.mem_of_mem_tail hk
  · exact hk

/-- Making room for a key drops another one. -/
theorem Aligned.mem_withRoom_iff (h : c.Aligned) :
    key ∈ (c.withRoom key).queue ↔ key ∈ c.queue := by
  refine ⟨h.mem_of_withRoom, fun hmem => ?_⟩
  rw [h.queue_withRoom, if_neg fun hfull => hfull.2.2 hmem]
  exact hmem

theorem Aligned.peek?_evict (h : c.Aligned) (hkey : key ∈ c.evict.queue) :
    c.evict.peek? key = c.peek? key := by
  unfold LruCache.evict at hkey ⊢
  split at hkey
  · rfl
  · next oldest rest hqueue =>
    have hnodup := h.nodup
    rw [hqueue] at hnodup
    have hne : key ≠ oldest := fun heq => (List.nodup_cons.mp hnodup).1 (heq ▸ hkey)
    unfold peek?
    rw [lookup_without, if_neg hne]

theorem Aligned.peek?_withRoom {k : κ} (h : c.Aligned) (hk : k ∈ (c.withRoom key).queue) :
    (c.withRoom key).peek? k = c.peek? k := by
  unfold LruCache.withRoom at hk ⊢
  split
  · next hfull => rw [if_pos hfull] at hk; exact h.peek?_evict hk
  · rfl

/-- An entry that goes is counted. -/
theorem length_evict (c : LruCache κ β) :
    c.evict.queue.length + c.evict.evictions = c.queue.length + c.evictions := by
  unfold evict
  split
  · rfl
  · next rest hqueue =>
    rw [hqueue, List.length_cons]
    show rest.length + (c.evictions + 1) = rest.length + 1 + c.evictions
    omega

theorem length_withRoom (c : LruCache κ β) (key : κ) :
    (c.withRoom key).queue.length + (c.withRoom key).evictions = c.queue.length + c.evictions := by
  unfold withRoom
  split
  · exact length_evict c
  · rfl

/-- Making room leaves the bound and the counts of look-ups. -/
theorem withRoom_fixed (c : LruCache κ β) (key : κ) :
    (c.withRoom key).maxSize = c.maxSize ∧ (c.withRoom key).hits = c.hits ∧
      (c.withRoom key).misses = c.misses := by
  unfold withRoom
  split
  · unfold evict
    split <;> exact ⟨rfl, rfl, rfl⟩
  · exact ⟨rfl, rfl, rfl⟩

theorem queue_insert (c : LruCache κ β) (key : κ) (value : β) :
    (c.insert key value).queue = (c.withRoom key).queue.filter (· != key) ++ [key] := rfl

theorem entries_insert (c : LruCache κ β) (key : κ) (value : β) :
    (c.insert key value).entries = without key (c.withRoom key).entries ++ [(key, value)] := rfl

theorem evictions_insert (c : LruCache κ β) (key : κ) (value : β) :
    (c.insert key value).evictions = (c.withRoom key).evictions := rfl

theorem currentSize_insert (c : LruCache κ β) (key : κ) (value : β) :
    (c.insert key value).currentSize = (c.insert key value).size := rfl

theorem peek?_insert (c : LruCache κ β) (key k : κ) (value : β) :
    (c.insert key value).peek? k = if k = key then some value else (c.withRoom key).peek? k := by
  unfold peek?
  rw [entries_insert, List.lookup_append, lookup_without]
  by_cases hk : k = key
  · rw [if_pos hk, if_pos hk, hk, Option.none_or, List.lookup_cons_self]
  · have hne : (k == key) = false := by simpa using hk
    rw [if_neg hk, if_neg hk, List.lookup_cons, hne, List.lookup_nil, Option.or_none]

theorem nodup_use {queue : List κ} (h : queue.Nodup) (key : κ) :
    (queue.filter (· != key) ++ [key]).Nodup := by
  refine List.nodup_append'.mpr ⟨h.filter _, List.nodup_singleton key, ?_⟩
  rw [List.disjoint_singleton]
  simp

theorem length_use {queue : List κ} (h : queue.Nodup) (key : κ) :
    (queue.filter (· != key) ++ [key]).length = queue.length + if key ∈ queue then 0 else 1 := by
  rw [List.length_append, ← h.erase_eq_filter, List.length_singleton]
  by_cases hmem : key ∈ queue
  · rw [List.length_erase_of_mem hmem, if_pos hmem]
    exact Nat.sub_add_cancel (List.length_pos_of_mem hmem)
  · rw [List.erase_of_not_mem hmem, if_neg hmem]

theorem Aligned.insert (h : c.Aligned) (key : κ) (value : β) : (c.insert key value).Aligned := by
  have hroom := h.withRoom key
  refine ⟨?_, nodup_use hroom.nodup key⟩
  rw [entries_insert, List.map_append, keys_without]
  exact (hroom.keys.filter _).append_right _

/-- An insertion of a key that is not held adds an entry or evicts one. -/
theorem Aligned.size_insert (h : c.Aligned) (key : κ) (value : β) :
    (c.insert key value).size + (c.insert key value).evictions =
      c.size + c.evictions + if key ∈ c.queue then 0 else 1 := by
  rw [(h.insert key value).size, h.size, queue_insert, length_use (h.withRoom key).nodup,
    evictions_insert, Nat.add_right_comm, length_withRoom]
  simp only [h.mem_withRoom_iff]

/-- A look-up that is answered uses its key, and one that is not changes
    nothing but a counter. -/
theorem get_eq (c : LruCache κ β) (key : κ) :
    (c.get key).2 =
      if (c.peek? key).isSome then { c.touch key with hits := c.hits + 1 }
      else { c with misses := c.misses + 1 } := by
  unfold get
  cases c.peek? key <;> rfl

theorem Aligned.get (h : c.Aligned) (key : κ) : (c.get key).2.Aligned := by
  rw [get_eq]
  split
  · next hheld =>
    have hmem := h.isSome_peek?_iff.mp hheld
    have huse : (c.queue.filter (· != key) ++ [key]).Perm c.queue := by
      rw [← h.nodup.erase_eq_filter]
      exact List.perm_append_comm.trans (List.perm_cons_erase hmem).symm
    exact ⟨h.keys.trans huse.symm, nodup_use h.nodup key⟩
  · exact ⟨h.keys, h.nodup⟩

end LruCache

/-! ## One request more -/

theorem after_concat (maxSize : Nat) (history : List (CacheRequest κ β))
    (request : CacheRequest κ β) :
    LruCache.after maxSize (history ++ [request]) =
      ((LruCache.after maxSize history).serve request).2 :=
  List.foldl_append

theorem meetings_concat (c : LruCache κ β) (history : List (CacheRequest κ β))
    (request : CacheRequest κ β) :
    meetings c (history ++ [request]) =
      meetings c history ++ [(history.foldl (fun c r => (c.serve r).2) c, request)] := by
  induction history generalizing c with
  | nil => rfl
  | cons r history ih =>
    rw [List.cons_append]
    unfold meetings
    rw [ih, List.foldl_cons, List.cons_append]

theorem usesSinceClear_concat (maxSize : Nat) (history : List (CacheRequest κ β))
    (request : CacheRequest κ β) :
    usesSinceClear maxSize (history ++ [request]) =
      if request.isClear then []
      else usesSinceClear maxSize history ++
        ((LruCache.after maxSize history).used? request).toList := by
  unfold usesSinceClear LruCache.after
  rw [meetings_concat, List.rtakeWhile_concat]
  cases request.isClear with
  | true => rfl
  | false =>
    rw [Bool.not_false, if_pos rfl, if_neg Bool.false_ne_true, List.filterMap_append]
    rfl

theorem additions_concat (maxSize : Nat) (history : List (CacheRequest κ β))
    (request : CacheRequest κ β) :
    additions maxSize (history ++ [request]) =
      additions maxSize history +
        if (LruCache.after maxSize history).adds request then 1 else 0 := by
  unfold additions LruCache.after
  rw [meetings_concat, List.countP_append, List.countP_singleton]

omit [DecidableEq κ] in
theorem lookups_concat (history : List (CacheRequest κ β)) (request : CacheRequest κ β) :
    lookups (history ++ [request]) = lookups history + if request.isGet then 1 else 0 := by
  unfold lookups
  rw [List.countP_append, List.countP_singleton]

theorem lastInserted_concat (history : List (CacheRequest κ β)) (request : CacheRequest κ β)
    (key : κ) :
    lastInserted (history ++ [request]) key =
      (request.valueFor? key).or (lastInserted history key) := by
  unfold lastInserted
  rw [List.filterMap_append, List.getLast?_append]
  congr 1
  cases h : request.valueFor? key with
  | none => rw [List.filterMap_cons_none h]; rfl
  | some v => rw [List.filterMap_cons_some h]; rfl

/-- What a history says about the cache that has served it. -/
structure Remembers (maxSize : Nat) (history : List (CacheRequest κ β)) (c : LruCache κ β) :
    Prop where
  aligned  : c.Aligned
  bound    : c.maxSize = maxSize
  queue    : c.queue = mostRecent maxSize (usesSinceClear maxSize history)
  values   : ∀ key ∈ c.queue, c.peek? key = lastInserted history key
  lookups  : c.hits + c.misses = lookups history
  size     : c.currentSize = c.size
  added    : additions maxSize history = c.currentSize + c.evictions

theorem Remembers.nothing (maxSize : Nat) :
    Remembers maxSize [] (LruCache.after maxSize ([] : List (CacheRequest κ β))) where
  aligned := ⟨.refl _, List.nodup_nil⟩
  bound := rfl
  queue := (mostRecent_nil maxSize).symm
  values := fun _ h => absurd h List.not_mem_nil
  lookups := rfl
  size := rfl
  added := rfl

/-- Making room for a key and noting its use follow the history. -/
theorem Remembers.queue_use (h : Remembers maxSize history c) (key : κ) :
    (c.withRoom key).queue.filter (· != key) ++ [key] =
      mostRecent maxSize (usesSinceClear maxSize history ++ [key]) := by
  rw [mostRecent_concat, ← h.queue, h.aligned.queue_withRoom, h.bound]

theorem Remembers.get (h : Remembers maxSize history (.after maxSize history)) (key : κ) :
    Remembers maxSize (history ++ [CacheRequest.get key])
      (.after maxSize (history ++ [CacheRequest.get key])) := by
  have huses := usesSinceClear_concat maxSize history (.get key)
  have hadded := additions_concat maxSize history (.get key)
  have hlast : ∀ k, lastInserted (history ++ [CacheRequest.get key]) k = lastInserted history k :=
    lastInserted_concat history (.get key)
  have hlookups := lookups_concat history (.get key)
  rw [after_concat]
  generalize LruCache.after maxSize history = c at h huses hadded ⊢
  have hanswer : c.used? (.get key) = if (c.peek? key).isSome then some key else none := by
    rw [← LruCache.get_fst]
    rfl
  rw [hanswer] at huses
  have haligned : (c.get key).2.Aligned := h.aligned.get key
  show Remembers maxSize _ (c.get key).2
  rw [LruCache.get_eq] at haligned ⊢
  by_cases hheld : (c.peek? key).isSome
  · rw [if_pos hheld] at haligned huses ⊢
    have hmem : key ∈ c.queue := h.aligned.isSome_peek?_iff.mp hheld
    have huse := h.queue_use key
    rw [h.aligned.queue_withRoom, if_neg fun hfull => hfull.2.2 hmem] at huse
    refine ⟨haligned, h.bound, huse.trans (congrArg _ huses.symm), fun k hk => ?_, ?_, h.size,
      hadded.trans h.added⟩
    · rcases List.mem_append.mp hk with hk | hk
      · exact (h.values k (List.mem_of_mem_filter hk)).trans (hlast k).symm
      · cases List.mem_singleton.mp hk
        exact (h.values key hmem).trans (hlast key).symm
    · rw [hlookups, ← h.lookups]
      exact Nat.add_right_comm ..
  · rw [if_neg hheld] at haligned huses ⊢
    rw [Option.toList_none, List.append_nil] at huses
    refine ⟨haligned, h.bound, h.queue.trans (congrArg _ huses.symm), fun k hk => ?_, ?_, h.size,
      hadded.trans h.added⟩
    · exact (h.values k hk).trans (hlast k).symm
    · rw [hlookups, ← h.lookups]
      rfl

theorem Remembers.insert (h : Remembers maxSize history (.after maxSize history)) (key : κ)
    (value : β) :
    Remembers maxSize (history ++ [CacheRequest.insert key value])
      (.after maxSize (history ++ [CacheRequest.insert key value])) := by
  have huses := usesSinceClear_concat maxSize history (.insert key value)
  have hadded := additions_concat maxSize history (.insert key value)
  have hlast : ∀ k, lastInserted (history ++ [CacheRequest.insert key value]) k =
      if key = k then some value else lastInserted history k := fun k => by
    rw [lastInserted_concat]
    unfold CacheRequest.valueFor?
    dsimp only
    split <;> rfl
  have hlookups := lookups_concat history (.insert key value)
  rw [after_concat]
  generalize LruCache.after maxSize history = c at h huses hadded ⊢
  obtain ⟨hbound, hhits, hmisses⟩ := c.withRoom_fixed key
  show Remembers maxSize _ (c.insert key value)
  refine ⟨h.aligned.insert key value, hbound.trans h.bound,
    (h.queue_use key).trans (congrArg _ huses.symm), fun k hk => ?_, ?_, rfl, ?_⟩
  · rw [LruCache.peek?_insert, hlast]
    by_cases hkey : k = key
    · rw [if_pos hkey, if_pos hkey.symm]
    · have hroom : k ∈ (c.withRoom key).queue := by
        rcases List.mem_append.mp hk with hk | hk
        · exact List.mem_of_mem_filter hk
        · exact absurd (List.mem_singleton.mp hk) hkey
      rw [if_neg hkey, if_neg (Ne.symm hkey), h.aligned.peek?_withRoom hroom]
      exact h.values k (h.aligned.mem_of_withRoom hroom)
  · rw [hlookups, ← h.lookups, ← hhits, ← hmisses]
    rfl
  · have habsent : c.adds (.insert key value) = true ↔ key ∉ c.queue := by
      rw [← h.aligned.isSome_peek?_iff, Bool.not_eq_true, Option.isSome_eq_false_iff]
      rfl
    rw [hadded, h.added, h.size, LruCache.currentSize_insert, h.aligned.size_insert]
    simp only [habsent, ite_not]

theorem Remembers.clear (h : Remembers maxSize history (.after maxSize history)) :
    Remembers maxSize (history ++ [CacheRequest.clear])
      (.after maxSize (history ++ [CacheRequest.clear])) := by
  have huses := usesSinceClear_concat maxSize history .clear
  have hadded := additions_concat maxSize history .clear
  have hlookups := lookups_concat history .clear
  rw [after_concat]
  generalize LruCache.after maxSize history = c at h huses hadded ⊢
  have hqueue : c.clear.queue = mostRecent maxSize [] := (mostRecent_nil maxSize).symm
  refine ⟨⟨.refl _, List.nodup_nil⟩, h.bound, hqueue.trans (congrArg _ huses.symm),
    fun _ hk => absurd hk List.not_mem_nil, h.lookups.trans hlookups.symm, rfl, ?_⟩
  rw [hadded, h.added, Nat.add_comm c.currentSize]
  exact (Nat.zero_add _).symm

theorem remembers_after (maxSize : Nat) (history : List (CacheRequest κ β)) :
    Remembers maxSize history (LruCache.after maxSize history) := by
  induction history using List.reverseRecOn with
  | nil => exact .nothing maxSize
  | append_singleton history request ih =>
    cases request with
    | get key => exact ih.get key
    | insert key value => exact ih.insert key value
    | clear => exact ih.clear

namespace Proofs

/-- A cache of any bound that has served any history holds the keys that were
    used most recently since it was last cleared, as many as the bound admits,
    and its queue lists them by their last use.  A look-up finds just these
    keys, each with the value last inserted for it.  The counters agree with
    the history: every look-up was a hit or a miss, and every insertion of a
    key that was not held is still an entry or was evicted. -/
theorem held_mostRecent (maxSize : Nat) (history : List (CacheRequest κ β)) :
    let c := LruCache.after maxSize history
    let recent := mostRecent maxSize (usesSinceClear maxSize history)
    recent.Nodup ∧ c.queue = recent ∧ (c.entries.map Prod.fst).Perm recent ∧
      (∀ key, (c.get key).1 = if key ∈ recent then lastInserted history key else none) ∧
      (∀ key ∈ recent, (lastInserted history key).isSome) ∧
      c.hits + c.misses = lookups history ∧
      c.currentSize = c.size ∧
      additions maxSize history = c.currentSize + c.evictions := by
  intro c recent
  have h : Remembers maxSize history c := remembers_after maxSize history
  have hqueue : c.queue = recent := h.queue
  have hfound : ∀ key, (c.peek? key).isSome ↔ key ∈ recent := fun key =>
    hqueue ▸ h.aligned.isSome_peek?_iff
  have hvalues : ∀ key ∈ recent, c.peek? key = lastInserted history key := hqueue ▸ h.values
  refine ⟨nodup_mostRecent _ _, hqueue, hqueue ▸ h.aligned.keys, fun key => ?_, fun key hkey => ?_,
    h.lookups, h.size, h.added⟩
  · rw [LruCache.get_fst]
    by_cases hkey : key ∈ recent
    · rw [if_pos hkey, hvalues key hkey]
    · rw [if_neg hkey, ← Option.not_isSome_iff_eq_none, hfound]
      exact hkey
  · rw [← hvalues key hkey, hfound]
    exact hkey

/-- The look-up saves the first key from making room for the third. -/
example :
    (LruCache.after 2 [.insert 1 'a', .insert 2 'b', .get 1, .insert 3 'c']).queue = [1, 3] := by
  decide

end Proofs

end Requests

end CircuitGrad
