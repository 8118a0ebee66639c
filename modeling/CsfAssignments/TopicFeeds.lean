import Mathlib.Data.List.Induction
import Mathlib.Data.List.TakeWhile

/-!
# Topics and feeds

A publish-subscribe service as it should be: every notice happens at once, and the feed of a
user has the messages of a topic from its subscription to its end.
-/

namespace CsfAssignments.TopicFeeds

inductive Notice (T U M : Type*)
  | publish (t : T) (m : M)
  | subscribe (u : U) (t : T)
  | unsubscribe (u : U) (t : T)
  deriving DecidableEq

/-- The feed of a user: the topic it is subscribed to and the messages so far. -/
structure Feed (T M : Type*) where
  topic : Option T
  messages : List M

variable {T U M : Type*}

def Notice.unsubscribes [DecidableEq U] (u : U) : Notice T U M → Bool
  | .unsubscribe v _ => v = u
  | _ => false

/-- The topics a user has subscribed to. -/
def subscriptions [DecidableEq U] (u : U) : List (Notice T U M) → List T
  | [] => []
  | .subscribe v t :: notices =>
      if v = u then t :: subscriptions u notices else subscriptions u notices
  | _ :: notices => subscriptions u notices

/-- The messages of a topic. -/
def topicLog [DecidableEq T] (t : T) : List (Notice T U M) → List M
  | [] => []
  | .publish t' m :: notices =>
      if t' = t then m :: topicLog t notices else topicLog t notices
  | _ :: notices => topicLog t notices

variable [DecidableEq T] [DecidableEq U]

def Feed.next (u : U) (feed : Feed T M) : Notice T U M → Feed T M
  | .publish t m =>
      if feed.topic = some t then { feed with messages := feed.messages ++ [m] } else feed
  | .subscribe v t => if v = u then { feed with topic := some t } else feed
  | .unsubscribe v _ => if v = u then { feed with topic := none } else feed

def feed (u : U) (notices : List (Notice T U M)) : Feed T M :=
  notices.foldl (Feed.next u) ⟨none, []⟩

theorem feed_append (u : U) (notices more : List (Notice T U M)) :
    feed u (notices ++ more) = more.foldl (Feed.next u) (feed u notices) :=
  List.foldl_append

omit [DecidableEq T] in
theorem subscriptions_append (u : U) (notices more : List (Notice T U M)) :
    subscriptions u (notices ++ more) = subscriptions u notices ++ subscriptions u more := by
  induction notices with
  | nil => rfl
  | cons n notices ih =>
    cases n with
    | subscribe v t =>
      rw [List.cons_append, subscriptions, subscriptions, ih]
      split_ifs <;> rfl
    | publish t m => exact ih
    | unsubscribe v t => exact ih

omit [DecidableEq U] in
theorem topicLog_append (t : T) (notices more : List (Notice T U M)) :
    topicLog t (notices ++ more) = topicLog t notices ++ topicLog t more := by
  induction notices with
  | nil => rfl
  | cons n notices ih =>
    cases n with
    | publish t' m =>
      rw [List.cons_append, topicLog, topicLog, ih]
      split_ifs <;> rfl
    | subscribe v t' => exact ih
    | unsubscribe v t' => exact ih

/-- Without a subscription a feed stays as it is. -/
private theorem foldl_unsubscribed {u : U} {notices : List (Notice T U M)} {messages : List M}
    (h : subscriptions u notices = []) :
    notices.foldl (Feed.next u) ⟨none, messages⟩ = ⟨none, messages⟩ := by
  induction notices with
  | nil => rfl
  | cons n notices ih =>
    cases n with
    | publish t m => exact ih h
    | unsubscribe v t =>
      rw [List.foldl_cons, Feed.next, ite_self]
      exact ih h
    | subscribe v t =>
      rw [subscriptions] at h
      split_ifs at h with hv
      rw [List.foldl_cons, Feed.next, if_neg hv]
      exact ih h

private theorem foldl_subscribed {u : U} {t : T} {notices : List (Notice T U M)}
    {messages : List M} (h : subscriptions u notices = []) :
    (notices.foldl (Feed.next u) ⟨some t, messages⟩).messages =
      messages ++ topicLog t (notices.takeWhile fun n => !n.unsubscribes u) := by
  induction notices generalizing messages with
  | nil => simp [topicLog]
  | cons n notices ih =>
    cases n with
    | publish t' m =>
      have hkeep : (Notice.publish t' m :: notices).takeWhile (fun n => !n.unsubscribes u) =
          Notice.publish t' m :: notices.takeWhile fun n => !n.unsubscribes u := rfl
      rw [hkeep, List.foldl_cons, Feed.next, topicLog]
      by_cases ht : t' = t
      · rw [if_pos (by rw [ht]), if_pos ht, ih h, List.append_assoc]
        rfl
      · rw [if_neg (by simpa using Ne.symm ht), if_neg ht, ih h]
    | unsubscribe v t' =>
      have h : subscriptions u notices = [] := h
      by_cases hv : v = u
      · simp [Feed.next, Notice.unsubscribes, hv, topicLog, foldl_unsubscribed h]
      · simp [Feed.next, Notice.unsubscribes, hv, topicLog, ih h]
    | subscribe v t' =>
      rw [subscriptions] at h
      split_ifs at h with hv
      rw [List.foldl_cons, Feed.next, if_neg hv, ih h]
      rfl

/-- The feed of a user that has subscribed to nothing is empty. -/
theorem feed_of_subscriptions_nil {u : U} {notices : List (Notice T U M)}
    (h : subscriptions u notices = []) : feed u notices = ⟨none, []⟩ :=
  foldl_unsubscribed h

/-- What is in a feed was published. -/
theorem exists_publish_of_mem_feed {u : U} {notices : List (Notice T U M)} {m : M}
    (h : m ∈ (feed u notices).messages) : ∃ t, .publish t m ∈ notices := by
  induction notices using List.reverseRecOn with
  | nil => exact absurd h List.not_mem_nil
  | append_singleton notices n ih =>
    have hold (hm : m ∈ (feed u notices).messages) : ∃ t, .publish t m ∈ notices ++ [n] := by
      obtain ⟨t, ht⟩ := ih hm
      exact ⟨t, List.mem_append_left _ ht⟩
    rw [feed_append, List.foldl_cons, List.foldl_nil] at h
    cases n with
    | publish t m' =>
      rw [Feed.next] at h
      split_ifs at h
      · rcases List.mem_append.mp h with h | h
        · exact hold h
        · rw [List.mem_singleton] at h
          exact ⟨t, h ▸ List.mem_append_right _ (List.mem_singleton_self _)⟩
      · exact hold h
    | subscribe v t =>
      rw [Feed.next] at h
      split_ifs at h <;> exact hold h
    | unsubscribe v t =>
      rw [Feed.next] at h
      split_ifs at h <;> exact hold h

/-- As long as its subscription does not change, a feed gets the messages of its topic. -/
theorem feed_append_of_steady {u : U} (notices : List (Notice T U M))
    {more : List (Notice T U M)}
    (hsteady : ∀ n ∈ more, ∀ t, n ≠ .subscribe u t ∧ n ≠ .unsubscribe u t) :
    (feed u (notices ++ more)).topic = (feed u notices).topic ∧
      (feed u (notices ++ more)).messages =
        (feed u notices).messages ++ ((feed u notices).topic.map (topicLog · more)).getD [] := by
  rw [feed_append]
  generalize feed u notices = f
  induction more generalizing f with
  | nil => cases h : f.topic <;> simp [topicLog, h]
  | cons n more ih =>
    have ih := ih fun n hn => hsteady n (List.mem_cons_of_mem _ hn)
    have hn := hsteady n List.mem_cons_self
    cases n with
    | publish t m =>
      rw [List.foldl_cons, Feed.next]
      by_cases ht : f.topic = some t
      · rw [if_pos ht]
        obtain ⟨htopic, hmessages⟩ := ih { f with messages := f.messages ++ [m] }
        exact ⟨htopic, by rw [hmessages]; simp [ht, topicLog]⟩
      · rw [if_neg ht]
        obtain ⟨htopic, hmessages⟩ := ih f
        refine ⟨htopic, ?_⟩
        rw [hmessages]
        cases hf : f.topic with
        | none => rfl
        | some t' =>
          rw [hf] at ht
          simp [topicLog, show t ≠ t' from fun h => ht (by rw [h])]
    | subscribe v t =>
      rw [List.foldl_cons, Feed.next, if_neg fun hv => (hn t).1 (by rw [hv])]
      exact ih f
    | unsubscribe v t =>
      rw [List.foldl_cons, Feed.next, if_neg fun hv => (hn t).2 (by rw [hv])]
      exact ih f

/-- The feed of a user with one subscription is the segment of the log between the subscription
and its end. -/
theorem feed_segment {u : U} {t : T} {before after : List (Notice T U M)}
    (h : (subscriptions u (before ++ .subscribe u t :: after)).length ≤ 1) :
    (feed u (before ++ .subscribe u t :: after)).messages =
      topicLog t (after.takeWhile fun n => !n.unsubscribes u) := by
  rw [subscriptions_append, subscriptions, if_pos rfl, List.length_append, List.length_cons] at h
  have hbefore : subscriptions u before = [] := List.length_eq_zero_iff.mp (by omega)
  have hafter : subscriptions u after = [] := List.length_eq_zero_iff.mp (by omega)
  rw [feed_append, feed_of_subscriptions_nil hbefore, List.foldl_cons, Feed.next, if_pos rfl,
    foldl_subscribed hafter]
  rfl

/-- The segment of a user that is still subscribed goes on to the end of the log. -/
theorem takeWhile_of_subscribed {u : U} {t : T} {before after : List (Notice T U M)}
    (h : (subscriptions u (before ++ .subscribe u t :: after)).length ≤ 1)
    (htopic : (feed u (before ++ .subscribe u t :: after)).topic ≠ none) :
    (after.takeWhile fun n => !n.unsubscribes u) = after := by
  refine List.takeWhile_eq_self_iff.mpr fun n hn => ?_
  by_contra hunsubscribes
  obtain ⟨l, l', rfl⟩ := List.append_of_mem hn
  refine htopic ?_
  have hl' : subscriptions u l' = [] := by
    rw [subscriptions_append, subscriptions, if_pos rfl, subscriptions_append] at h
    cases n with
    | unsubscribe v t' =>
      simp only [List.length_append, List.length_cons, subscriptions] at h
      exact List.length_eq_zero_iff.mp (by omega)
    | _ => exact absurd rfl hunsubscribes
  rw [feed_append, List.foldl_cons, List.foldl_append, List.foldl_cons]
  cases n with
  | unsubscribe v t' =>
    have hv : v = u := by simpa [Notice.unsubscribes] using hunsubscribes
    have hnext (f : Feed T M) : Feed.next u f (.unsubscribe v t') = ⟨none, f.messages⟩ := if_pos hv
    rw [hnext, foldl_unsubscribed hl']
  | _ => exact absurd rfl hunsubscribes

end CsfAssignments.TopicFeeds
