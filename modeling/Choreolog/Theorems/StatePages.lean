import Choreolog.Network.ManagementPages

/-! # Paged reads of a state

The pages of one call carry one hash. States that are committed in the run have distinct hashes, so every page of an
accepted text comes from the same state, and it is still the committed one when the last page is answered. -/

namespace Choreolog.Network
open State Protocol

variable {states : Set Domain} {server server' : StateServer} {query : ManagementQuery} {maximum : Nat}
  {schedule : Nat → Option (List ServerEvent)} {assembled hash text : String}

theorem stateHash_ne (state : Domain) : stateHash state ≠ "" := by
  intro h
  have hlength := congrArg String.length h
  unfold stateHash hex16 at hlength
  simp at hlength

namespace StateServer

/-- The committed state is one of these, and a cached text is that of the state with the cached hash. -/
structure Cached (states : Set Domain) (server : StateServer) : Prop where
  state : server.state ∈ states
  text : server.cachedStateHash = "" ∨ ∃ t ∈ states, server.cachedStateHash = stateHash t ∧ server.cachedState = canonicalState t

theorem Cached.refresh (h : Cached states server) (distinct : states.InjOn stateHash) :
    server.refresh.state = server.state ∧ server.refresh.cachedState = canonicalState server.state ∧ Cached states server.refresh := by
  unfold StateServer.refresh
  split
  · exact ⟨rfl, rfl, h.state, .inr ⟨server.state, h.state, rfl, rfl⟩⟩
  · rename_i hsame
    rw [not_not] at hsame
    refine ⟨rfl, ?_, h⟩
    rcases h.text with hempty | ⟨t, ht, hhash, htext⟩
    · exact absurd (hsame.symm.trans hempty) (stateHash_ne _)
    · rw [htext, distinct ht h.state (hhash.symm.trans hsame)]

theorem Cached.statePage (h : Cached states server) (distinct : states.InjOn stateHash) (query : ManagementQuery) :
    (server.statePage query).2.state = server.state ∧ Cached states (server.statePage query).2 := by
  unfold StateServer.statePage
  split
  · exact ⟨rfl, h⟩
  · exact ⟨(h.refresh distinct).1, (h.refresh distinct).2.2⟩

end StateServer

/-- The states that are committed meanwhile. -/
def ServerEvent.Within (states : Set Domain) : ServerEvent → Prop
  | commit state _ => state ∈ states
  | other _ => True

theorem StateServer.Cached.handle (h : Cached states server) (distinct : states.InjOn stateHash) {event : ServerEvent}
    (within : event.Within states) : Cached states (server.handle event) := by
  cases event with
  | commit state index => exact ⟨within, h.text⟩
  | other query => exact (h.statePage distinct query).2

theorem StateServer.Cached.handleAll (h : Cached states server) (distinct : states.InjOn stateHash) {events : List ServerEvent}
    (within : ∀ event ∈ events, event.Within states) : Cached states (events.foldl StateServer.handle server) := by
  induction events generalizing server with
  | nil => exact h
  | cons event events ih =>
    exact ih (h.handle distinct (within event List.mem_cons_self)) fun e he => within e (List.mem_cons_of_mem _ he)

/-- A page without an error is a chunk of the text of the committed state, under its hash. -/
theorem StateServer.Cached.page (h : Cached states server) (distinct : states.InjOn stateHash)
    (accepted : (server.statePage query).1.errorCode = "") :
    (server.statePage query).1.snapshotStateHash = stateHash server.state ∧
      (server.statePage query).1.stateSize = (canonicalState server.state).length ∧
      ∃ n, (server.statePage query).1.stateChunk.toList = ((canonicalState server.state).toList.drop query.afterIndex).take n := by
  obtain ⟨hstate, htext, -⟩ := h.refresh distinct
  unfold StateServer.statePage at accepted ⊢
  split at accepted
  · exact absurd accepted (show "StateChanged" ≠ "" by decide)
  · rename_i hquery
    rw [if_neg hquery]
    unfold StateServer.chunk at accepted ⊢
    dsimp only at accepted ⊢
    split at accepted
    · exact absurd accepted (show "InvalidCursor" ≠ "" by decide)
    · rename_i hcursor
      rw [if_neg hcursor, hstate, htext]
      exact ⟨rfl, rfl, _, String.toList_ofList⟩

/-- What is assembled under a hash begins the text of the state with this hash. -/
def Begins (states : Set Domain) (assembled hash : String) : Prop :=
  assembled = "" ∨ ∃ t ∈ states, hash = stateHash t ∧ assembled.toList <+: (canonicalState t).toList

/-- An accepted page continues the text of the committed state, and the last one completes it. -/
theorem Begins.page (begins : Begins states assembled hash) (cached : server.Cached states) (distinct : states.InjOn stateHash)
    {reply : ManagementReply} (hpage : (server.statePage { operation := "state", afterIndex := assembled.length, expectedStateHash := hash }).1 = reply)
    (hok : reply.errorCode = "") (accepted : Accepts maximum assembled hash reply) :
    reply.snapshotStateHash = stateHash server.state ∧ (hash ≠ "" → stateHash server.state = hash) ∧
      (assembled ++ reply.stateChunk).toList <+: (canonicalState server.state).toList ∧
      (reply.hasMore = false → assembled ++ reply.stateChunk = canonicalState server.state) := by
  subst hpage
  obtain ⟨hhash, hsize, n, hchunk⟩ := cached.page distinct hok
  generalize (server.statePage { operation := "state", afterIndex := assembled.length, expectedStateHash := hash }).1 = reply at *
  have hsame : hash ≠ "" → stateHash server.state = hash := by
    intro hne
    have haccepted := accepted.hash
    rw [if_neg hne] at haccepted
    exact hhash.symm.trans haccepted.symm
  have hbegins : assembled.toList <+: (canonicalState server.state).toList := by
    rcases begins with rfl | ⟨t, ht, rfl, hprefix⟩
    · exact List.nil_prefix
    · rwa [distinct cached.state ht (hsame (stateHash_ne t))]
  have hcontinues : (assembled ++ reply.stateChunk).toList <+: (canonicalState server.state).toList := by
    obtain ⟨rest, hrest⟩ := hbegins
    rw [String.toList_append, hchunk, ← hrest, List.drop_left' String.length_toList]
    exact (List.prefix_append_right_inj _).mpr (List.take_prefix n rest)
  refine ⟨hhash, hsame, hcontinues, fun hlast => String.toList_inj.mp (hcontinues.eq_of_length_le ?_)⟩
  have hmore := accepted.more
  rw [hlast, accepted.next, hsize] at hmore
  have hend := of_decide_eq_false hmore.symm
  rw [String.toList_append, List.length_append, String.length_toList, String.length_toList, String.length_toList]
  omega

theorem fetchState_spec (distinct : states.InjOn stateHash)
    (within : ∀ page events, schedule page = some events → ∀ event ∈ events, event.Within states)
    (cached : server.Cached states) (begins : Begins states assembled hash)
    {page : Nat} (returned : fetchState maximum schedule page server assembled hash = (.ok text, server')) :
    server'.state ∈ states ∧ text = canonicalState server'.state ∧ (hash ≠ "" → stateHash server'.state = hash) := by
  fun_induction fetchState maximum schedule page server assembled hash with
  | case1 page server assembled hash hnone => cases returned
  | case2 page server assembled hash events hevents query reply server₁ herror => cases returned
  | case3 page server assembled hash events hevents query reply server₁ hok hlarge => cases returned
  | case4 page server assembled hash events hevents query reply server₁ hok hsmall accepted more ih =>
    have cached₀ := cached.handleAll distinct (within page events hevents)
    obtain ⟨hstate, cached₁⟩ := cached₀.statePage distinct query
    obtain ⟨hhash, hsame, hcontinues, -⟩ := begins.page cached₀ distinct rfl (not_not.mp hok) accepted
    obtain ⟨hmem, htext, hfinal⟩ := ih cached₁ (.inr ⟨_, cached₀.state, hhash, hcontinues⟩) returned
    refine ⟨hmem, htext, fun hne => ?_⟩
    rw [hfinal (hhash ▸ stateHash_ne _), hhash, hsame hne]
  | case5 page server assembled hash events hevents query reply server₁ hok hsmall accepted last =>
    have cached₀ := cached.handleAll distinct (within page events hevents)
    obtain ⟨hstate, cached₁⟩ := cached₀.statePage distinct query
    obtain ⟨hhash, hsame, -, hcomplete⟩ := begins.page cached₀ distinct rfl (not_not.mp hok) accepted
    obtain ⟨htext, rfl⟩ := Prod.mk.inj returned
    obtain rfl := Except.ok.inj htext
    refine ⟨cached₁.state, ?_, ?_⟩
    · rw [hstate]
      exact hcomplete (by simpa using last)
    · rw [hstate]
      exact hsame
  | case6 page server assembled hash events hevents query reply server₁ hok hsmall refused => cases returned

end Choreolog.Network
