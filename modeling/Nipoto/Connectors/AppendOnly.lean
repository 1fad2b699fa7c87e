import Nipoto.Connectors.Effects

/-! # Runs only append

No call adds or removes a conversation, changes more of one than who handles it,
or touches a message that is stored. A call that raises changes its own counter
and nothing else.
-/

namespace Nipoto.Connectors

open Machine FakeMainBackend

/-- The same conversation, with staff perhaps handling it now. -/
structure Kept (earlier later : Conversation String) : Prop where
  fields : later = { earlier with handledBy := later.handledBy }
  handledBy : later.handledBy = earlier.handledBy ∨ earlier.handledBy = .assistant ∧ later.handledBy = .staff

/-- What lies between two states of a run. -/
structure Grows (s t : FakeMainBackend) : Prop where
  known : ∀ c, (t.conversations c).isSome = (s.conversations c).isSome
  conversations : ∀ c earlier later, s.conversations c = some earlier → t.conversations c = some later →
    Kept earlier later
  messages : ∀ c, s.stored c <+: t.stored c

/-- No id of a message that is new in `t` is the id of any other message. -/
def NewIdsDistinct (s t : FakeMainBackend) : Prop :=
  ∀ c i m d j n, (t.stored c)[i]? = some m → (t.stored d)[j]? = some n → (s.stored c).length ≤ i →
    (c, i) ≠ (d, j) → m.id ≠ n.id

/-- The source's name of a call. -/
def Call.name : Call → String
  | .getConversation .. => "get_conversation"
  | .getMessages .. => "get_messages"
  | .listKbItems .. => "list_kb_items"
  | .getRecentOrders .. => "get_recent_orders"
  | .postAssistantMessage .. => "post_assistant_message"
  | .handoff .. => "handoff"

def Call.isRead : Call → Bool
  | .postAssistantMessage .. => false
  | .handoff .. => false
  | _ => true

/-- A read and a call that raises only count. -/
def OnlyCounts (s : FakeMainBackend) (x : Call) : Prop :=
  (x.isRead = true ∨ ∃ error, (s.call x).1 = .error error) →
    (s.call x).2 = { s with calls := Function.update s.calls x.name (s.calls x.name + 1) }

structure AppendOnly (s : FakeMainBackend) (calls : List Call) : Prop where
  grows : ∀ before after, calls = before ++ after → Grows (run call s before) (run call s calls)
  newIds : NewIdsDistinct s (run call s calls)
  atomic : Along call OnlyCounts s calls

variable {s t u : FakeMainBackend}

theorem Kept.refl (conv : Conversation String) : Kept conv conv := ⟨rfl, .inl rfl⟩

theorem Kept.trans {a b c : Conversation String} (first : Kept a b) (second : Kept b c) :
    Kept a c := by
  constructor
  · rw [second.fields, first.fields]
  · cases second.handledBy with
    | inl same => rw [same]; exact first.handledBy
    | inr change =>
        cases first.handledBy with
        | inl same => exact .inr ⟨same ▸ change.1, change.2⟩
        | inr earlier =>
            rw [change.1] at earlier
            exact absurd earlier.2 (by simp)

theorem Grows.refl (s : FakeMainBackend) : Grows s s where
  known := fun _ => rfl
  conversations := by
    intro c earlier later here there
    rw [here] at there
    exact Option.some.inj there ▸ Kept.refl earlier
  messages := fun c => List.prefix_refl _

theorem Grows.trans (first : Grows s t) (second : Grows t u) : Grows s u where
  known := fun c => (second.known c).trans (first.known c)
  conversations := by
    intro c earlier later here there
    have between : (t.conversations c).isSome := by rw [first.known, here]; rfl
    obtain ⟨middle, found⟩ := Option.isSome_iff_exists.mp between
    exact (first.conversations c earlier middle here found).trans (second.conversations c middle later found there)
  messages := fun c => (first.messages c).trans (second.messages c)

theorem grows_of_sameData (same : SameData s t) : Grows s t where
  known := by simp [same.conversations]
  conversations := by
    intro c earlier later here there
    rw [same.conversations, here] at there
    exact Option.some.inj there ▸ Kept.refl earlier
  messages := by
    intro c
    rw [stored, stored, same.messages]

theorem grows_append (convId text idemKey : String) (now : DateTime) :
    Grows s (s.append convId text idemKey now) where
  known := fun _ => rfl
  conversations := (Grows.refl s).conversations
  messages := by
    intro c
    rw [stored_append]
    split
    · exact List.prefix_append _ _
    · exact List.prefix_refl _

theorem grows_handoff {convId : String} {conv : Conversation String} (found : s.conversations convId = some conv) :
    Grows s (s.setHandledBy convId conv .staff) where
  known := isSome_setHandledBy found .staff
  conversations := by
    intro c earlier later here there
    by_cases same : c = convId
    · subst same
      rw [found] at here
      obtain rfl := Option.some.inj here
      simp only [setHandledBy, Function.update_self, Option.some.injEq] at there
      subst there
      refine ⟨rfl, ?_⟩
      cases handled : conv.handledBy with
      | assistant => exact .inr ⟨rfl, rfl⟩
      | staff => exact .inl rfl
    · simp only [setHandledBy, Function.update_of_ne same] at there
      exact (Grows.refl s).conversations c earlier later here there
  messages := fun c => List.prefix_refl _

theorem call_grows (s : FakeMainBackend) (x : Call) : Grows s (s.call x).2 := by
  have effect := call_effect s x
  generalize (s.call x).1 = reply at effect
  generalize (s.call x).2 = t at effect ⊢
  cases effect with
  | appended =>
      apply (grows_of_sameData (record_sameData s "post_assistant_message")).trans
      exact grows_append _ _ _ _
  | replayed => exact grows_of_sameData (record_sameData s _)
  | handedOff found =>
      apply (grows_of_sameData (record_sameData s "handoff")).trans
      have here : (s.record "handoff").conversations _ = some _ := found
      exact (grows_handoff here).trans (grows_of_sameData ⟨rfl, rfl, rfl⟩)
  | quiet same => exact grows_of_sameData same

theorem run_grows (s : FakeMainBackend) (calls : List Call) : Grows s (run call s calls) := by
  induction calls generalizing s with
  | nil => exact Grows.refl s
  | cons x rest ih => exact (call_grows s x).trans (ih (s.call x).2)

theorem call_onlyCounts (s : FakeMainBackend) (x : Call) : OnlyCounts s x := by
  intro quiet
  cases x with
  | getConversation => rfl
  | getMessages => rfl
  | listKbItems => rfl
  | getRecentOrders => rfl
  | postAssistantMessage convId text idemKey now =>
      cases quiet with
      | inl read => exact absurd read (by simp [Call.isRead])
      | inr raised =>
          obtain ⟨error, raised⟩ := raised
          simp only [call, postAssistantMessage] at raised ⊢
          split at raised
          · rfl
          · split at raised
            · exact absurd raised (by simp)
            · exact absurd raised (by simp)
  | handoff convId reason =>
      cases quiet with
      | inl read => exact absurd read (by simp [Call.isRead])
      | inr raised =>
          obtain ⟨error, raised⟩ := raised
          simp only [call, handoff] at raised ⊢
          split at raised
          · rfl
          · exact absurd raised (by simp)

theorem messageId_injective {m n : Nat} (same : messageId m = messageId n) : m = n := by
  have digits := congrArg String.toList same
  simp only [messageId, String.toList_append, Nat.toList_repr] at digits
  have read := congrArg (fun d => Nat.ofDigitChars 10 d 0) (List.append_cancel_left digits)
  simpa [Nat.ofDigitChars_toDigits] using read

/-- An id that the backend could give. -/
def Generated (id : String) : Prop := "m_fake_".toList <+: id.toList

theorem messageId_generated (n : Nat) : Generated (messageId n) := by
  rw [Generated, messageId, String.toList_append]
  exact List.prefix_append _ _

/-- Where the ids of a state come from: the messages that are new since `start` have
    numbers that are used up. -/
structure Numbered (start s : FakeMainBackend) : Prop where
  loaded : ∀ c, start.stored c <+: s.stored c
  numbers : ∀ c i m, (s.stored c)[i]? = some m → (start.stored c).length ≤ i → ∃ n < s.ids, m.id = messageId n
  distinct : NewIdsDistinct start s

variable {start : FakeMainBackend}

theorem numbered_start (start : FakeMainBackend) : Numbered start start where
  loaded := fun _ => List.prefix_refl _
  numbers := by
    intro c i m here new
    rw [List.getElem?_eq_none new] at here
    exact absurd here (by simp)
  distinct := by
    intro c i m d j n here _ new
    rw [List.getElem?_eq_none new] at here
    exact absurd here (by simp)

/-- No message has the next id yet. -/
theorem Numbered.next_unused (numbered : Numbered start s)
    (fresh : ∀ c, ∀ m ∈ start.stored c, ¬ Generated m.id) {c : String} {m : Message String}
    (known : m ∈ s.stored c) : m.id ≠ messageId s.ids := by
  intro same
  obtain ⟨i, here⟩ := List.mem_iff_getElem?.mp known
  by_cases old : i < (start.stored c).length
  · obtain ⟨more, split⟩ := numbered.loaded c
    rw [← split, List.getElem?_append_left old] at here
    exact fresh c m (List.mem_of_getElem? here) (same ▸ messageId_generated s.ids)
  · obtain ⟨n, used, number⟩ := numbered.numbers c i m here (by omega)
    exact absurd (messageId_injective (number.symm.trans same)) (by omega)

/-- A stored message after an append is an old one, or the new one at the end. -/
theorem stored_append_get {convId text idemKey : String} {now : DateTime} {c : String} {i : Nat}
    {m : Message String} (here : ((s.append convId text idemKey now).stored c)[i]? = some m) :
    (s.stored c)[i]? = some m ∨
      c = convId ∧ i = (s.stored c).length ∧ m = assistantMessage (messageId s.ids) convId text now := by
  rw [stored_append] at here
  split at here
  · rename_i same
    rw [List.getElem?_append] at here
    split at here
    · exact .inl here
    · rename_i beyond
      obtain ⟨at_end, rfl⟩ := List.getElem?_eq_some_iff.mp here
      simp only [List.length_singleton] at at_end
      exact .inr ⟨same, by omega, by simp⟩
  · exact .inl here

theorem numbered_append (fresh : ∀ c, ∀ m ∈ start.stored c, ¬ Generated m.id) (numbered : Numbered start s)
    (convId text idemKey : String) (now : DateTime) :
    Numbered start (s.append convId text idemKey now) where
  loaded := fun c => (numbered.loaded c).trans ((grows_append convId text idemKey now).messages c)
  numbers := by
    intro c i m here new
    have more : (s.append convId text idemKey now).ids = s.ids + 1 := rfl
    cases stored_append_get here with
    | inl old =>
        obtain ⟨n, used, number⟩ := numbered.numbers c i m old new
        exact ⟨n, by omega, number⟩
    | inr added =>
        obtain ⟨-, -, rfl⟩ := added
        exact ⟨s.ids, by omega, rfl⟩
  distinct := by
    intro c i m d j n here there new apart
    cases stored_append_get here with
    | inl first =>
        cases stored_append_get there with
        | inl second => exact numbered.distinct c i m d j n first second new apart
        | inr added =>
            obtain ⟨-, -, rfl⟩ := added
            exact numbered.next_unused fresh (List.mem_of_getElem? first)
    | inr added =>
        obtain ⟨rfl, rfl, rfl⟩ := added
        cases stored_append_get there with
        | inl second => exact (numbered.next_unused fresh (List.mem_of_getElem? second)).symm
        | inr again =>
            obtain ⟨rfl, rfl, -⟩ := again
            exact absurd rfl apart

/-- A step that adds no message. -/
theorem numbered_same (numbered : Numbered start s) (messages : t.messages = s.messages) (ids : s.ids ≤ t.ids) :
    Numbered start t := by
  have same : t.stored = s.stored := by
    funext c
    rw [stored, stored, messages]
  constructor
  · rw [same]
    exact numbered.loaded
  · intro c i m here new
    rw [same] at here
    obtain ⟨n, used, number⟩ := numbered.numbers c i m here new
    exact ⟨n, used.trans_le ids, number⟩
  · simp only [NewIdsDistinct, same]
    exact numbered.distinct

theorem call_ids (s : FakeMainBackend) (x : Call) : s.ids ≤ (s.call x).2.ids := by
  cases x with
  | getConversation => exact le_rfl
  | getMessages => exact le_rfl
  | listKbItems => exact le_rfl
  | getRecentOrders => exact le_rfl
  | postAssistantMessage convId text idemKey now =>
      simp only [call, postAssistantMessage]
      split
      · exact le_rfl
      · split
        · exact le_rfl
        · exact Nat.le_succ s.ids
  | handoff convId reason =>
      simp only [call, handoff]
      split
      · exact le_rfl
      · exact le_rfl

theorem call_numbered (fresh : ∀ c, ∀ m ∈ start.stored c, ¬ Generated m.id) (numbered : Numbered start s)
    (x : Call) : Numbered start (s.call x).2 := by
  have effect := call_effect s x
  have ids := call_ids s x
  generalize (s.call x).1 = reply at effect
  generalize (s.call x).2 = t at effect ids ⊢
  cases effect with
  | appended =>
      have counted : Numbered start (s.record "post_assistant_message") := numbered_same numbered rfl le_rfl
      exact numbered_append fresh counted _ _ _ _
  | replayed => exact numbered_same numbered rfl ids
  | handedOff => exact numbered_same numbered rfl ids
  | quiet same => exact numbered_same numbered same.messages ids

theorem run_numbered (fresh : ∀ c, ∀ m ∈ start.stored c, ¬ Generated m.id) (numbered : Numbered start s)
    (calls : List Call) : Numbered start (run call s calls) := by
  induction calls generalizing s with
  | nil => exact numbered
  | cons x rest ih => exact ih (call_numbered fresh numbered x)

theorem runs_append_only (fresh : ∀ c, ∀ m ∈ s.stored c, ¬ Generated m.id) (calls : List Call) :
    AppendOnly s calls where
  grows := by
    intro before after split
    rw [split, run_append]
    exact run_grows _ after
  newIds := (run_numbered fresh (numbered_start s) calls).distinct
  atomic := along_iff.mpr fun before x _ _ => call_onlyCounts (run call s before) x

/-- One conversation with a message of its owner. -/
def oneConversation : FakeMainBackend where
  conversations := fun convId =>
    if convId = "c" then some { id := "c", ownerId := "u", status := .opened, handledBy := .assistant } else none
  messages := fun convId => if convId = "c" then some [{ id := "m_1", authorKind := .user, text := "hello" }] else none

theorem runs_append_only_handoff :
    AppendOnly oneConversation [.postAssistantMessage "c" "hello" "key" ⟨0, none⟩, .handoff "c" "user_request",
      .handoff "d" "user_request"] := by
  apply runs_append_only
  intro c m known
  by_cases here : c = "c"
  · have only : m = { id := "m_1", authorKind := .user, text := "hello" } := by
      simpa [stored, oneConversation, here] using known
    rw [only]
    change ¬ "m_fake_".toList <+: "m_1".toList
    decide
  · simp [stored, oneConversation, here] at known

end Nipoto.Connectors
