import Nipoto.Connectors.Effects
import Nipoto.General.Firsts

/-! # One message for each key

The key table of the in-memory backend is one table for all conversations. So a
conversation gains a message for a key just when the key was first posted to it.
-/

namespace Nipoto.Connectors

open Firsts Machine FakeMainBackend

/-- A post that succeeded. -/
structure Post where
  convId : String
  text : String
  idemKey : String
  now : DateTime
  messageId : String
  deriving DecidableEq

def Post.message (p : Post) : Message String := assistantMessage p.messageId p.convId p.text p.now

def postOf : Call × Except Error Reply → Option Post
  | (.postAssistantMessage convId text idemKey now, .ok (.posted messageId)) =>
      some { convId, text, idemKey, now, messageId }
  | _ => none

def posts (trace : List (Call × Except Error Reply)) : List Post := trace.filterMap postOf

def postsTo (trace : List (Call × Except Error Reply)) (convId : String) : List Post :=
  (posts trace).filter (·.convId = convId)

/-- `convId` gained one message for each key posted to it, with the text of the key's
    first post, and every post of the key was answered with that message's id. -/
structure OncePerKey (before after : FakeMainBackend) (trace : List (Call × Except Error Reply))
    (convId : String) : Prop where
  gained : ∃ messages, after.stored convId = before.stored convId ++ messages ∧
    messages.map (fun m => (m.authorKind, m.text, m.id)) =
      (firsts Post.idemKey (postsTo trace convId)).map fun p => (.assistant, p.text, p.messageId)
  answered : ∀ p ∈ postsTo trace convId, ∃ q ∈ firsts Post.idemKey (postsTo trace convId),
    q.idemKey = p.idemKey ∧ q.messageId = p.messageId

/-- No key is posted to two conversations that exist. -/
def KeysSeparate (s : FakeMainBackend) (calls : List Call) : Prop :=
  ∀ convId₁ text₁ convId₂ text₂ idemKey now₁ now₂,
    .postAssistantMessage convId₁ text₁ idemKey now₁ ∈ calls →
    .postAssistantMessage convId₂ text₂ idemKey now₂ ∈ calls →
    (s.conversations convId₁).isSome → (s.conversations convId₂).isSome → convId₁ = convId₂

/-- What holds after a run from `start`: the first posts of all keys are the messages
    that were appended, and the key table is made of them. -/
structure Logged (start : FakeMainBackend) (past : List (Call × Except Error Reply))
    (s : FakeMainBackend) : Prop where
  conversations : ∀ c, (s.conversations c).isSome = (start.conversations c).isSome
  messages : ∀ c, s.stored c = start.stored c ++
    ((firsts Post.idemKey (posts past)).filter (·.convId = c)).map Post.message
  keys : ∀ key id, s.idempotency key = some id ↔
    ∃ p ∈ firsts Post.idemKey (posts past), p.idemKey = key ∧ p.messageId = id
  answered : ∀ p ∈ posts past, ∃ q ∈ firsts Post.idemKey (posts past),
    q.idemKey = p.idemKey ∧ q.messageId = p.messageId
  accepted : ∀ convId text idemKey now,
    (∃ messageId, { convId, text, idemKey, now, messageId : Post } ∈ posts past) ↔
      .postAssistantMessage convId text idemKey now ∈ past.map Prod.fst ∧
        (start.conversations convId).isSome

variable {start s : FakeMainBackend} {past : List (Call × Except Error Reply)}

theorem logged_start (fresh : ∀ key, start.idempotency key = none) : Logged start [] start where
  conversations _ := rfl
  messages := by simp [posts, firsts]
  keys := by simp [posts, firsts, fresh]
  answered := by simp [posts]
  accepted := by simp [posts]

theorem posts_concat (x : Call) (reply : Except Error Reply) :
    posts (past ++ [(x, reply)]) = posts past ++ (postOf (x, reply)).toList := by
  rw [posts, List.filterMap_append, List.filterMap_cons, List.filterMap_nil, posts]
  cases postOf (x, reply) <;> rfl

/-- A call that is no accepted post changes nothing that is logged. -/
theorem logged_other (logged : Logged start past s) {x : Call} {reply : Except Error Reply}
    {t : FakeMainBackend} (noPost : postOf (x, reply) = none)
    (conversations : ∀ c, (t.conversations c).isSome = (s.conversations c).isSome)
    (messages : t.messages = s.messages) (keys : t.idempotency = s.idempotency)
    (refused : ∀ convId text idemKey now, x = .postAssistantMessage convId text idemKey now →
      (s.conversations convId).isSome = false) :
    Logged start (past ++ [(x, reply)]) t := by
  have same : posts (past ++ [(x, reply)]) = posts past := by simp [posts_concat, noPost]
  constructor
  · exact fun c => (conversations c).trans (logged.conversations c)
  · intro c
    rw [same, ← logged.messages c, stored, messages, stored]
  · rw [same, keys]
    exact logged.keys
  · rw [same]
    exact logged.answered
  · intro convId text idemKey now
    rw [same, logged.accepted, List.map_append, List.mem_append]
    constructor
    · exact fun both => ⟨.inl both.1, both.2⟩
    · intro both
      cases both.1 with
      | inl earlier => exact ⟨earlier, both.2⟩
      | inr last =>
          have unknown := refused convId text idemKey now (List.mem_singleton.mp last).symm
          rw [logged.conversations, both.2] at unknown
          exact absurd unknown (by simp)

/-- The call of a post, with its answer. -/
def Post.answered (p : Post) : Call × Except Error Reply :=
  (.postAssistantMessage p.convId p.text p.idemKey p.now, .ok (.posted p.messageId))

theorem posts_answered (p : Post) : posts (past ++ [p.answered]) = posts past ++ [p] := posts_concat ..

theorem accepted_answered (logged : Logged start past s) {p : Post}
    (found : (s.conversations p.convId).isSome) (convId text idemKey : String) (now : DateTime) :
    (∃ messageId, ({ convId, text, idemKey, now, messageId } : Post) ∈ posts (past ++ [p.answered])) ↔
      Call.postAssistantMessage convId text idemKey now ∈ (past ++ [p.answered]).map Prod.fst ∧
        (start.conversations convId).isSome := by
  have known := logged.conversations p.convId
  rw [found] at known
  simp only [posts_answered, List.mem_append, List.mem_singleton, exists_or, logged.accepted]
  simp only [List.map_append, List.map_cons, List.map_nil, List.mem_append, List.mem_singleton,
    Post.answered, Call.postAssistantMessage.injEq]
  constructor
  · intro either
    cases either with
    | inl earlier => exact ⟨.inl earlier.1, earlier.2⟩
    | inr here =>
        obtain ⟨id, same⟩ := here
        subst same
        exact ⟨.inr ⟨rfl, rfl, rfl, rfl⟩, known.symm⟩
  · intro both
    cases both.1 with
    | inl earlier => exact .inl ⟨earlier, both.2⟩
    | inr here =>
        obtain ⟨rfl, rfl, rfl, rfl⟩ := here
        exact .inr ⟨p.messageId, rfl⟩

/-- A post of a new key. -/
theorem logged_append (logged : Logged start past s) {p : Post} {t : FakeMainBackend}
    (found : (s.conversations p.convId).isSome) (unseen : s.idempotency p.idemKey = none)
    (conversations : t.conversations = s.conversations)
    (messages : ∀ c, t.stored c = if c = p.convId then s.stored c ++ [p.message] else s.stored c)
    (keys : ∀ key, t.idempotency key = if key = p.idemKey then some p.messageId else s.idempotency key) :
    Logged start (past ++ [p.answered]) t := by
  have fresh : ∀ q ∈ posts past, q.idemKey ≠ p.idemKey := by
    intro q member same
    obtain ⟨first, inFirsts, keyEq, -⟩ := logged.answered q member
    have seen := (logged.keys p.idemKey first.messageId).mpr ⟨first, inFirsts, keyEq.trans same, rfl⟩
    rw [unseen] at seen
    exact absurd seen (by simp)
  have firstsEq : firsts Post.idemKey (posts (past ++ [p.answered])) =
      firsts Post.idemKey (posts past) ++ [p] := by
    rw [posts_answered]
    exact firsts_concat_fresh fresh
  constructor
  · exact fun c => by rw [conversations, logged.conversations]
  · intro c
    rw [firstsEq, messages, logged.messages]
    by_cases same : p.convId = c
    · simp [same]
    · simp [same, Ne.symm same]
  · intro key id
    rw [firstsEq, keys]
    simp only [List.mem_append, List.mem_singleton, or_and_right, exists_or, ← logged.keys,
      exists_eq_left]
    by_cases same : p.idemKey = key
    · subst same
      simp [unseen]
    · simp [same, Ne.symm same]
  · intro q member
    rw [posts_answered] at member
    rw [firstsEq]
    cases List.mem_append.mp member with
    | inl earlier =>
        obtain ⟨first, inFirsts, both⟩ := logged.answered q earlier
        exact ⟨first, List.mem_append_left [p] inFirsts, both⟩
    | inr last => exact ⟨q, List.mem_append_right _ last, rfl, rfl⟩
  · exact accepted_answered logged found

/-- A post of a known key. -/
theorem logged_replay (logged : Logged start past s) {p : Post} {t : FakeMainBackend}
    (found : (s.conversations p.convId).isSome) (seen : s.idempotency p.idemKey = some p.messageId)
    (same : SameData s t) : Logged start (past ++ [p.answered]) t := by
  obtain ⟨first, inFirsts, keyEq, idEq⟩ := (logged.keys _ _).mp seen
  have firstsEq : firsts Post.idemKey (posts (past ++ [p.answered])) =
      firsts Post.idemKey (posts past) := by
    rw [posts_answered]
    exact firsts_concat_known ⟨first, mem_of_mem_firsts inFirsts, keyEq⟩
  constructor
  · exact fun c => by rw [same.conversations, logged.conversations]
  · intro c
    rw [firstsEq, ← logged.messages, stored, same.messages, stored]
  · rw [firstsEq, same.idempotency]
    exact logged.keys
  · intro q member
    rw [posts_answered] at member
    rw [firstsEq]
    cases List.mem_append.mp member with
    | inl earlier => exact logged.answered q earlier
    | inr last =>
        rw [List.mem_singleton.mp last]
        exact ⟨first, inFirsts, keyEq, idEq⟩
  · exact accepted_answered logged found

theorem logged_step (logged : Logged start past s) (x : Call) :
    Logged start (past ++ [(x, (s.call x).1)]) (s.call x).2 := by
  have effect := call_effect s x
  generalize (s.call x).1 = reply at effect ⊢
  generalize (s.call x).2 = t at effect ⊢
  cases effect with
  | @appended convId text idemKey now found unseen =>
      exact logged_append (p := ⟨convId, text, idemKey, now, messageId s.ids⟩) logged found unseen rfl
        (stored_append (s := s.record _) convId text idemKey now)
        (idempotency_append (s := s.record _) convId text idemKey now)
  | @replayed convId text idemKey now id found seen =>
      exact logged_replay (p := ⟨convId, text, idemKey, now, id⟩) logged found seen
        (record_sameData s _)
  | handedOff found =>
      exact logged_other logged rfl (isSome_setHandledBy (s := s.record _) found .staff) rfl rfl (by simp)
  | quiet same noPost =>
      refine logged_other logged ?_ (fun c => by rw [same.conversations]) same.messages same.idempotency ?_
      · cases x with
        | postAssistantMessage convId text idemKey now => rw [(noPost _ _ _ _ rfl).2]; rfl
        | _ => rfl
      · intro convId text idemKey now isPost
        rw [(noPost _ _ _ _ isPost).1]
        rfl

theorem run_logged (fresh : ∀ key, start.idempotency key = none) (calls : List Call) :
    Logged start (answers call start calls) (run call start calls) :=
  answers_invariant (logged_start fresh) (fun _ _ x logged => logged_step logged x) calls

theorem keysSeparate_iff {t : FakeMainBackend} {calls : List Call}
    (logged : Logged start (answers call start calls) t) :
    KeysSeparate start calls ↔
      ∀ p ∈ posts (answers call start calls), ∀ q ∈ posts (answers call start calls),
        p.idemKey = q.idemKey → p.convId = q.convId := by
  have accepted := logged.accepted
  rw [answers_inputs] at accepted
  constructor
  · intro separate p inP q inQ same
    have callP := (accepted p.convId p.text p.idemKey p.now).mp ⟨p.messageId, inP⟩
    have callQ := (accepted q.convId q.text q.idemKey q.now).mp ⟨q.messageId, inQ⟩
    rw [← same] at callQ
    exact separate _ _ _ _ _ _ _ callP.1 callQ.1 callP.2 callQ.2
  · intro separate convId₁ text₁ convId₂ text₂ idemKey now₁ now₂ call₁ call₂ exists₁ exists₂
    obtain ⟨id₁, post₁⟩ := (accepted convId₁ text₁ idemKey now₁).mpr ⟨call₁, exists₁⟩
    obtain ⟨id₂, post₂⟩ := (accepted convId₂ text₂ idemKey now₂).mpr ⟨call₂, exists₂⟩
    exact separate _ post₁ _ post₂ rfl

theorem once_per_key_iff (fresh : ∀ key, start.idempotency key = none) (calls : List Call) :
    (∀ convId, OncePerKey start (run call start calls) (answers call start calls) convId) ↔
      KeysSeparate start calls := by
  have logged := run_logged fresh calls
  rw [keysSeparate_iff logged, ← filter_firsts_iff]
  generalize answers call start calls = trace at logged ⊢
  generalize run call start calls = t at logged ⊢
  constructor
  · intro once c
    obtain ⟨messages, gained, same⟩ := (once c).gained
    rw [logged.messages c, List.append_cancel_left_eq] at gained
    have lengths := congrArg List.length same
    rw [← gained] at lengths
    simpa [postsTo] using lengths
  · intro lengths c
    have inOrder : ((firsts Post.idemKey (posts trace)).filter (·.convId = c)).Sublist
        (firsts Post.idemKey (postsTo trace c)) := filter_firsts_sublist c
    have parts := inOrder.eq_of_length (lengths c)
    have separate := filter_firsts_iff.mp lengths
    constructor
    · refine ⟨_, logged.messages c, ?_⟩
      rw [parts, List.map_map]
      rfl
    · intro p member
      obtain ⟨inPosts, here⟩ := List.mem_filter.mp member
      obtain ⟨q, first, keyEq, idEq⟩ := logged.answered p inPosts
      refine ⟨q, ?_, keyEq, idEq⟩
      have sameConv := separate q (mem_of_mem_firsts first) p inPosts keyEq
      rw [← parts]
      exact List.mem_filter.mpr ⟨first, by simpa [sameConv] using here⟩

/-- Two conversations without messages. -/
def twoConversations : FakeMainBackend :=
  { conversations := fun convId =>
      if convId = "first" ∨ convId = "second" then
        some { id := convId, ownerId := "customer", status := .opened, handledBy := .assistant }
      else none }

theorem once_per_key_iff_replay :
    let calls : List Call :=
      [.postAssistantMessage "first" "hello" "key" ⟨0, none⟩,
        .handoff "second" "error",
        .postAssistantMessage "first" "hello again" "key" ⟨1, none⟩]
    (∀ convId, OncePerKey twoConversations (run call twoConversations calls)
        (answers call twoConversations calls) convId) ↔ KeysSeparate twoConversations calls :=
  once_per_key_iff (fun _ => rfl) _

/-- A key that was used in one conversation suppresses the message in another. -/
theorem key_of_another_conversation_posts_nothing :
    ¬ ∀ (start : FakeMainBackend), (∀ key, start.idempotency key = none) → ∀ calls convId,
      OncePerKey start (run call start calls) (answers call start calls) convId := by
  intro always
  have once := always twoConversations (fun _ => rfl)
    [.postAssistantMessage "first" "hello" "key" ⟨0, none⟩,
      .postAssistantMessage "second" "hello" "key" ⟨1, none⟩] "second"
  obtain ⟨messages, gained, same⟩ := once.gained
  have nothing : [] = messages := gained
  rw [← nothing] at same
  exact absurd same (by decide)

end Nipoto.Connectors
