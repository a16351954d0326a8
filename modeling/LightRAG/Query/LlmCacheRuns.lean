import LightRAG.Query.KeywordJson

/-!
# Calls with and without the LLM cache

What a call asks the cache for is its own answer, so calls whose keys tell their requests apart
deliver with the caches what they deliver without them.
-/

namespace LightRAG.LlmCache

open QueryPrompt List

variable {V : Type} {host : Host V} {caches : Caches}

theorem withKeywords_direct (mode : Mode) (text : String)
    (next : List String → List String → Program) :
    (withKeywords host caches mode text next).direct =
      (next (extractedKeywords host text).1 (extractedKeywords host text).2).direct := by
  unfold withKeywords
  split <;> rfl

theorem answerStage_direct (q : Question) (args : List String)
    (respond : String → String → String) (prompt : Option Prompt) :
    (q.answerStage host caches args respond prompt).direct =
      (q.answerStage host .off args respond prompt).direct := by
  cases prompt with
  | none => rfl
  | some prompt =>
    simp only [Question.answerStage]
    split
    · rfl
    · split
      · rfl
      · split <;> rfl

theorem kgAnswer_direct (q : Question) (high low : List String) :
    (q.kgAnswer host caches high low).direct = (q.kgAnswer host .off high low).direct := by
  unfold Question.kgAnswer
  split
  · rfl
  · exact answerStage_direct q _ _ _

theorem program_direct (call : Call V) :
    (program host caches call).direct = (program host .off call).direct := by
  cases call with
  | useLlmFuncWithCache c =>
    simp only [program,useLlmFuncWithCache]
    split
    · split <;> rfl
    · rfl
  | extractKeywordsOnly mode text =>
    simp only [program,extractKeywordsOnly]
    rw [withKeywords_direct,withKeywords_direct]
  | kgQuery q =>
    simp only [program,kgQuery]
    split
    · exact kgAnswer_direct q _ _
    · rw [withKeywords_direct]
      exact kgAnswer_direct q _ _
  | naiveQuery q => exact answerStage_direct q _ _ _

def Call.extracted : Call V → Option (Mode × String)
  | .extractKeywordsOnly mode text => some (mode, text)
  | .kgQuery q =>
    if q.param.hlKeywords ≠ [] ∨ q.param.llKeywords ≠ [] then none
    else some (q.param.mode, q.query)
  | _ => none

/-- No two requests of the calls are hidden behind one text, and the keywords that are extracted
are rendered without a closing think tag. -/
structure Unambiguous (host : Host V) (calls : List (Call V)) : Prop where
  texts : ∀ c c', .useLlmFuncWithCache c ∈ calls → .useLlmFuncWithCache c' ∈ calls →
    c.cacheType = c'.cacheType → c.responseFormat = c'.responseFormat →
      c.identity = c'.identity → c.promptText host = c'.promptText host →
        c.request host = c'.request host
  /-- A response type is not the text `None` where another question has none. -/
  kgResponseTypes : ∀ q q', .kgQuery q ∈ calls → .kgQuery q' ∈ calls → KeyedAlike host q q' →
    q.param.responseType = none → q'.param.responseType ≠ some "None"
  naiveResponseTypes : ∀ q q', .naiveQuery q ∈ calls → .naiveQuery q' ∈ calls →
    KeyedAlike host q q' → q.param.responseType = none → q'.param.responseType ≠ some "None"
  keywords : ∀ call ∈ calls, ∀ mode text, call.extracted = some (mode, text) →
    ¬ HasClosingTag (host.dumpsKeywords (extractedKeywords host text))

/-- A computation that one of the calls looks up, and what it sends to the model: the identity and
the request. -/
inductive Asked (host : Host V) (calls : List (Call V)) :
    Memo String String Value → Option V × LlmRequest V → Prop
  | llm (c : LlmCall V) (hmem : .useLlmFuncWithCache c ∈ calls) :
      Asked host calls (c.memo host) (c.identity, c.request host)
  | keywords (call : Call V) (mode : Mode) (text : String) (hmem : call ∈ calls)
      (hextracted : call.extracted = some (mode, text)) :
      Asked host calls (keywordsMemo host mode text)
        (some host.keywordIdentity, keywordRequest host text)
  | kg (q : Question) (low high : String) (prompt : Prompt) (hmem : .kgQuery q ∈ calls)
      (hhistory : q.param.conversationHistory = [])
      (hprompt : (q.kgQuery host low high).prompt = some prompt) :
      Asked host calls (q.answerMemo host (q.kgArgs host low high) prompt.systemPrompt)
        (some host.queryIdentity, q.answerRequest prompt.systemPrompt)
  | naive (q : Question) (prompt : Prompt) (hmem : .naiveQuery q ∈ calls)
      (hhistory : q.param.conversationHistory = [])
      (hprompt : (q.naiveQuery host).prompt = some prompt) :
      Asked host calls (q.answerMemo host (q.naiveArgs host) prompt.systemPrompt)
        (some host.queryIdentity, q.answerRequest prompt.systemPrompt)

variable {calls : List (Call V)} {m : Memo String String Value}

theorem of_asked_answerStage {q : Question} {args : List String}
    {respond : String → String → String} {prompt : Option Prompt}
    (h : (q.answerStage host caches args respond prompt).asked m) :
    q.param.conversationHistory = [] ∧
      ∃ p, prompt = some p ∧ m = q.answerMemo host args p.systemPrompt := by
  cases prompt with
  | none => cases h
  | some p =>
    simp only [Question.answerStage] at h
    split at h
    · cases h
    · split at h
      · cases h
      · split at h
        · rename_i huses
          simp only [Question.usesCache,Bool.and_eq_true,decide_eq_true_eq] at huses
          cases h with
          | inl heq => exact ⟨huses.2,p,rfl,heq⟩
          | inr hnext => cases hnext
        · cases h

theorem of_asked_kgAnswer {q : Question} {high low : List String}
    (hmem : .kgQuery q ∈ calls) (h : (q.kgAnswer host caches high low).asked m) :
    ∃ sent, Asked host calls m sent := by
  unfold Question.kgAnswer at h
  split at h
  · cases h
  · obtain ⟨hhistory,p,hp,rfl⟩ := of_asked_answerStage h
    exact ⟨_,.kg q _ _ p hmem hhistory hp⟩

theorem of_asked_withKeywords {mode : Mode} {text : String}
    {next : List String → List String → Program}
    (h : (withKeywords host caches mode text next).asked m) :
    m = keywordsMemo host mode text ∨
      (next (extractedKeywords host text).1 (extractedKeywords host text).2).asked m := by
  unfold withKeywords at h
  split at h
  · exact h
  · exact .inr h

theorem asked_of_program {call : Call V} (hmem : call ∈ calls)
    (h : (program host caches call).asked m) : ∃ sent, Asked host calls m sent := by
  cases call with
  | useLlmFuncWithCache c =>
    simp only [program,useLlmFuncWithCache] at h
    split at h
    · split at h
      · cases h with
        | inl heq =>
          rw [heq]
          exact ⟨_,.llm c hmem⟩
        | inr hnext => cases hnext
      · cases h
    · cases h
  | extractKeywordsOnly mode text =>
    simp only [program] at h
    cases of_asked_withKeywords h with
    | inl heq =>
      rw [heq]
      exact ⟨_,.keywords _ mode text hmem rfl⟩
    | inr hnext => cases hnext
  | kgQuery q =>
    simp only [program,kgQuery] at h
    split at h
    · exact of_asked_kgAnswer hmem h
    · rename_i hgiven
      cases of_asked_withKeywords h with
      | inl heq =>
        rw [heq]
        exact ⟨_,.keywords _ _ _ hmem (if_neg hgiven)⟩
      | inr hnext => exact of_asked_kgAnswer hmem hnext
  | naiveQuery q =>
    obtain ⟨hhistory,p,hp,rfl⟩ := of_asked_answerStage h
    exact ⟨_,.naive q p hmem hhistory hp⟩

theorem key_inj (h : host.Lawful) {mode mode' cacheType cacheType' : String}
    {args args' : List String} (hmode : ':' ∉ mode.toList) (hmode' : ':' ∉ mode'.toList)
    (heq : generateCacheKey mode cacheType (host.computeArgsHash args) =
      generateCacheKey mode' cacheType' (host.computeArgsHash args')) :
    mode = mode' ∧ cacheType = cacheType' ∧ args = args' := by
  obtain ⟨hm,ht,hhash⟩ := generateCacheKey_inj hmode hmode' (h.md5_colon _) (h.md5_colon _) heq
  exact ⟨hm,ht,computeArgsHash_inj h hhash⟩

theorem colon_not_mem_default : ':' ∉ "default".toList := by decide

section Keys

variable (h : host.Lawful) {c c' : LlmCall V} {mode mode' : Mode} {text text' : String}
  {q q' : Question} {args args' : List String} {systemPrompt systemPrompt' : String}

include h

theorem llm_key_inj (heq : (c.memo host).key = (c'.memo host).key) :
    c.cacheType = c'.cacheType ∧ c.args host = c'.args host := by
  have hkeys : generateCacheKey "default" c.cacheType (host.computeArgsHash (c.args host)) =
      generateCacheKey "default" c'.cacheType (host.computeArgsHash (c'.args host)) := heq
  exact (key_inj h colon_not_mem_default colon_not_mem_default hkeys).2

theorem keywords_key_inj
    (heq : (keywordsMemo host mode text).key = (keywordsMemo host mode' text').key) :
    text = text' := by
  have hkeys : generateCacheKey mode.text "keywords" (host.computeArgsHash
      (keywordArgs host mode text)) = generateCacheKey mode'.text "keywords"
        (host.computeArgsHash (keywordArgs host mode' text')) := heq
  have hargs := (key_inj h (colon_not_mem_mode mode) (colon_not_mem_mode mode') hkeys).2.2
  simp only [keywordArgs,List.cons.injEq,and_true] at hargs
  exact hargs.2

theorem answer_key_inj (heq : (q.answerMemo host args systemPrompt).key =
    (q'.answerMemo host args' systemPrompt').key) : args = args' := by
  have hkeys : generateCacheKey q.param.mode.text "query" (host.computeArgsHash args) =
      generateCacheKey q'.param.mode.text "query" (host.computeArgsHash args') := heq
  exact (key_inj h (colon_not_mem_mode q.param.mode) (colon_not_mem_mode q'.param.mode) hkeys).2.2

theorem llm_key_ne_keywords : (c.memo host).key ≠ (keywordsMemo host mode text).key := by
  intro heq
  have hkeys : generateCacheKey "default" c.cacheType (host.computeArgsHash (c.args host)) =
      generateCacheKey mode.text "keywords" (host.computeArgsHash (keywordArgs host mode text)) :=
    heq
  exact default_ne_mode mode (key_inj h colon_not_mem_default (colon_not_mem_mode mode) hkeys).1

theorem llm_key_ne_answer : (c.memo host).key ≠ (q.answerMemo host args systemPrompt).key := by
  intro heq
  have hkeys : generateCacheKey "default" c.cacheType (host.computeArgsHash (c.args host)) =
      generateCacheKey q.param.mode.text "query" (host.computeArgsHash args) := heq
  exact default_ne_mode q.param.mode
    (key_inj h colon_not_mem_default (colon_not_mem_mode q.param.mode) hkeys).1

theorem keywords_key_ne_answer :
    (keywordsMemo host mode text).key ≠ (q.answerMemo host args systemPrompt).key := by
  intro heq
  have hkeys : generateCacheKey mode.text "keywords" (host.computeArgsHash
      (keywordArgs host mode text)) =
        generateCacheKey q.param.mode.text "query" (host.computeArgsHash args) := heq
  have htype := (key_inj h (colon_not_mem_mode mode) (colon_not_mem_mode q.param.mode) hkeys).2.1
  exact absurd htype (by decide)

end Keys

theorem llm_sent_eq (h : host.Lawful) (hu : Unambiguous host calls) {c c' : LlmCall V}
    (hmem : .useLlmFuncWithCache c ∈ calls) (hmem' : .useLlmFuncWithCache c' ∈ calls)
    (heq : (c.memo host).key = (c'.memo host).key) :
    (c.identity, c.request host) = (c'.identity, c'.request host) := by
  obtain ⟨htype,hargs⟩ := llm_key_inj h heq
  simp only [LlmCall.args,List.cons.injEq,and_true,true_and] at hargs
  obtain ⟨htext,hformat,hidentity⟩ := hargs
  have hident := serializeCacheVariant_inj h hidentity
  rw [hident,hu.texts c c' hmem hmem' htype (serializeCacheVariant_inj h hformat) hident htext]

theorem llm_answer_eq {c c' : LlmCall V}
    (hsent : (c.identity, c.request host) = (c'.identity, c'.request host)) :
    c.answer host = c'.answer host := by
  obtain ⟨hidentity,hrequest⟩ := Prod.mk.inj hsent
  unfold LlmCall.answer
  rw [hidentity,hrequest]

variable {q q' : Question}

theorem responseType_eq
    (htext : q.param.responseType.getD "None" = q'.param.responseType.getD "None")
    (hne : q.param.responseType = none → q'.param.responseType ≠ some "None")
    (hne' : q'.param.responseType = none → q.param.responseType ≠ some "None") :
    q.param.responseType = q'.param.responseType := by
  cases ht : q.param.responseType with
  | none =>
    cases ht' : q'.param.responseType with
    | none => rfl
    | some t' =>
      rw [ht,ht'] at htext
      exact absurd (ht'.trans (congrArg some htext.symm)) (hne ht)
  | some t =>
    cases ht' : q'.param.responseType with
    | none =>
      rw [ht,ht'] at htext
      exact absurd (ht.trans (congrArg some htext)) (hne' ht')
    | some t' =>
      rw [ht,ht'] at htext
      exact congrArg some htext

theorem answerRequest_eq (halike : KeyedAlike host q q')
    (hhistory : q.param.conversationHistory = [])
    (hhistory' : q'.param.conversationHistory = []) (systemPrompt : String) :
    (q.answerRequest systemPrompt : LlmRequest V) = q'.answerRequest systemPrompt := by
  unfold Question.answerRequest
  rw [halike.query,hhistory,hhistory']

theorem answer_eq {systemPrompt systemPrompt' : String}
    (hrequest : (q.answerRequest systemPrompt : LlmRequest V) = q'.answerRequest systemPrompt') :
    q.answer host systemPrompt = q'.answer host systemPrompt' := by
  unfold Question.answer
  rw [hrequest]

theorem kg_request_eq (hu : Unambiguous host calls)
    {low high low' high' : String} {prompt prompt' : Prompt} (hmem : .kgQuery q ∈ calls)
    (hmem' : .kgQuery q' ∈ calls) (hhistory : q.param.conversationHistory = [])
    (hhistory' : q'.param.conversationHistory = [])
    (hprompt : (q.kgQuery host low high).prompt = some prompt)
    (hprompt' : (q'.kgQuery host low' high').prompt = some prompt')
    (heq : q.kgArgs host low high = q'.kgArgs host low' high') :
    (q.answerRequest prompt.systemPrompt : LlmRequest V) =
      q'.answerRequest prompt'.systemPrompt := by
  obtain ⟨rfl,rfl,halike,htext⟩ := keyedAlike_of_kgArgs heq
  have hresponse := responseType_eq htext (hu.kgResponseTypes q q' hmem hmem' halike)
    (hu.kgResponseTypes q' q hmem' hmem halike.symm)
  rw [halike.kgPrompt_eq hresponse,hprompt'] at hprompt
  cases hprompt
  exact answerRequest_eq halike hhistory hhistory' _

theorem naive_request_eq (hu : Unambiguous host calls)
    {prompt prompt' : Prompt} (hmem : .naiveQuery q ∈ calls) (hmem' : .naiveQuery q' ∈ calls)
    (hhistory : q.param.conversationHistory = [])
    (hhistory' : q'.param.conversationHistory = [])
    (hprompt : (q.naiveQuery host).prompt = some prompt)
    (hprompt' : (q'.naiveQuery host).prompt = some prompt')
    (heq : q.naiveArgs host = q'.naiveArgs host) :
    (q.answerRequest prompt.systemPrompt : LlmRequest V) =
      q'.answerRequest prompt'.systemPrompt := by
  obtain ⟨halike,htext⟩ := keyedAlike_of_naiveArgs heq
  have hresponse := responseType_eq htext (hu.naiveResponseTypes q q' hmem hmem' halike)
    (hu.naiveResponseTypes q' q hmem' hmem halike.symm)
  rw [halike.naivePrompt_eq hresponse,hprompt'] at hprompt
  cases hprompt
  exact answerRequest_eq halike hhistory hhistory' _

theorem value_of_textMemo {key key' text text' stored : String} {value : Value}
    (hwrite : (textMemo key text).write (textMemo key text).compute = some stored)
    (hread : (textMemo key' text').read stored = some value) : value = .text text := by
  simp only [textMemo] at hwrite hread
  split at hwrite
  · cases hwrite
  · cases hwrite
    cases hread
    rfl

theorem value_of_llmMemo {c c' : LlmCall V} {stored : String} {value : Value}
    (hwrite : (c.memo host).write (c.memo host).compute = some stored)
    (hread : (c'.memo host).read stored = some value) : value = .text (c.answer host) := by
  unfold LlmCall.memo at hwrite hread
  dsimp only at hwrite hread
  split at hwrite
  · exact value_of_textMemo hwrite hread
  · cases hwrite

theorem value_of_keywordsMemo (h : host.Lawful) {mode mode' : Mode} {text stored : String}
    {value : Value} (htag : ¬ HasClosingTag (host.dumpsKeywords (extractedKeywords host text)))
    (hwrite : (keywordsMemo host mode text).write (keywordsMemo host mode text).compute =
      some stored)
    (hread : (keywordsMemo host mode' text).read stored = some value) :
    value = (keywordsMemo host mode' text).compute := by
  simp only [keywordsMemo] at hwrite hread ⊢
  split at hwrite
  · cases hwrite
  · cases hwrite
    have hclean := clean_extracted host text
    rw [parse_dumpsKeywords h hclean.1 hclean.2 htag] at hread
    cases hread
    rfl

theorem asked_agree (h : host.Lawful) (hu : Unambiguous host calls)
    {m m' : Memo String String Value} {sent sent' : Option V × LlmRequest V}
    (hm : Asked host calls m sent) (hm' : Asked host calls m' sent') (heq : m.key = m'.key) :
    sent = sent' ∧ ∀ stored, m.write m.compute = some stored →
      ∀ value, m'.read stored = some value → value = m'.compute := by
  cases hm with
  | llm c hmem =>
    cases hm' with
    | llm c' hmem' =>
      have hsent := llm_sent_eq h hu hmem hmem' heq
      refine ⟨hsent,fun stored hwrite value hread => ?_⟩
      rw [value_of_llmMemo hwrite hread,llm_answer_eq hsent]
      rfl
    | keywords => exact (llm_key_ne_keywords h heq).elim
    | kg => exact (llm_key_ne_answer h heq).elim
    | naive => exact (llm_key_ne_answer h heq).elim
  | keywords call mode text hmem hextracted =>
    cases hm' with
    | llm => exact (llm_key_ne_keywords h heq.symm).elim
    | keywords _ mode' text' =>
      obtain rfl := keywords_key_inj h heq
      exact ⟨rfl,fun stored hwrite value hread =>
        value_of_keywordsMemo h (hu.keywords call hmem mode text hextracted) hwrite hread⟩
    | kg => exact (keywords_key_ne_answer h heq).elim
    | naive => exact (keywords_key_ne_answer h heq).elim
  | kg q low high prompt hmem hhistory hprompt =>
    cases hm' with
    | llm => exact (llm_key_ne_answer h heq.symm).elim
    | keywords => exact (keywords_key_ne_answer h heq.symm).elim
    | kg q' low' high' prompt' hmem' hhistory' hprompt' =>
      have hrequest := kg_request_eq hu hmem hmem' hhistory hhistory' hprompt hprompt'
        (answer_key_inj h heq)
      refine ⟨by rw [hrequest],fun stored hwrite value hread => ?_⟩
      rw [value_of_textMemo hwrite hread,answer_eq hrequest]
      rfl
    | naive => exact (kgArgs_ne_naiveArgs _ _ (answer_key_inj h heq)).elim
  | naive q prompt hmem hhistory hprompt =>
    cases hm' with
    | llm => exact (llm_key_ne_answer h heq.symm).elim
    | keywords => exact (keywords_key_ne_answer h heq.symm).elim
    | kg => exact (kgArgs_ne_naiveArgs _ _ (answer_key_inj h heq).symm).elim
    | naive q' prompt' hmem' hhistory' hprompt' =>
      have hrequest := naive_request_eq hu hmem hmem' hhistory hhistory' hprompt hprompt'
        (answer_key_inj h heq)
      refine ⟨by rw [hrequest],fun stored hwrite value hread => ?_⟩
      rw [value_of_textMemo hwrite hread,answer_eq hrequest]
      rfl

theorem delivered_eq_direct (h : host.Lawful) (hu : Unambiguous host calls) (caches : Caches) :
    delivered host caches calls = calls.map fun call => (program host .off call).direct := by
  have hcompatible : Memo.Compatible fun m => ∃ sent, Asked host calls m sent := by
    intro m m' ⟨_,hm⟩ ⟨_,hm'⟩ heq
    exact (asked_agree h hu hm hm' heq).2
  unfold delivered
  rw [Memo.Program.runAll_eq hcompatible _ Memo.sound_empty,map_map]
  · exact map_congr_left fun call _ => program_direct call
  · intro p hp m hm
    obtain ⟨call,hcall,rfl⟩ := mem_map.mp hp
    exact asked_of_program hcall hm

/-- A digest without colons that loses nothing. -/
def sampleDigest (s : String) : String :=
  String.ofList (s.toList.flatMap fun c =>
    if c = ':' then ['%', 'c'] else if c = '%' then ['%', '%'] else [c])

def readDigest : List Char → List Char
  | '%' :: c :: cs => (if c = 'c' then ':' else '%') :: readDigest cs
  | c :: cs => c :: readDigest cs
  | [] => []

theorem readDigest_sampleDigest (cs : List Char) :
    readDigest (cs.flatMap fun c =>
      if c = ':' then ['%', 'c'] else if c = '%' then ['%', '%'] else [c]) = cs := by
  induction cs with
  | nil => rfl
  | cons c cs ih =>
    rw [flatMap_cons]
    split
    · rename_i h
      rw [h]
      exact congrArg (List.cons ':') ih
    · split
      · rename_i h
        rw [h]
        exact congrArg (List.cons '%') ih
      · rename_i h
        rw [singleton_append,readDigest,ih]
        intro c' cs' hc
        exact absurd hc h

theorem sampleDigest_injective : Function.Injective sampleDigest := by
  intro s s' heq
  have hread := congrArg readDigest (String.ofList_injective heq)
  rw [readDigest_sampleDigest,readDigest_sampleDigest] at hread
  exact String.toList_injective hread

theorem colon_not_mem_sampleDigest (s : String) : ':' ∉ (sampleDigest s).toList := by
  rw [sampleDigest,String.toList_ofList,mem_flatMap]
  rintro ⟨c,-,hin⟩
  split at hin
  · exact absurd hin (by decide)
  · split at hin
    · exact absurd hin (by decide)
    · rename_i h _
      exact h (mem_singleton.mp hin).symm

/-- The format `{"type": "json_object"}` and the identity of a model. -/
def sampleSerialize : Bool → String
  | true => "\x7b\"type\":\"json_object\"\x7d"
  | false => "\x7b\"model\":\"m\"\x7d"

/-- The reply to the request for keywords of a text: for `tagged`, a keyword with think tags that
are written as escapes. -/
def sampleReply (request : LlmRequest Bool) : String :=
  if request.prompt = "tagged" then
    "\x7b\"high_level_keywords\": [\"\\u003cthink\\u003ea\\u003c/think\\u003eb\"], " ++
      "\"low_level_keywords\": []\x7d"
  else if request.prompt = "plain" then dumpsJson (["a"], ["b"])
  else request.prompt ++ ("|" ++ request.systemPrompt.getD "")

def sampleHost : Host Bool where
  llm _ request := sampleReply request
  queryIdentity := false
  keywordIdentity := false
  language := "English"
  jsonObject := true
  isJsonObject v := v
  serialize := sampleSerialize
  md5 := sampleDigest
  unescape s := s
  isRemoved c := c.toNat < 32 && c ≠ '\n'
  loads := loadsJson
  repair _ := none
  dumpsKeywords := dumpsJson
  keywordsExtraction text _ := text
  failResponse := "Sorry"
  tokenizer := ⟨String.length, fun _ _ => none⟩
  readTemplate text := [.text text]
  ragResponse := [.contextData]
  naiveRagResponse := [.contextData]
  systemPromptTemplate := none
  userPromptPrefix := none
  rerankModelFunc := none
  minRerankScore := 0
  stores _ := ⟨fun _ => none, .vector, 5, false, false, none, false⟩
  search _ _ _ _ _ _ := ⟨[], [], [], [], []⟩

theorem sampleHost_lawful : sampleHost.Lawful where
  serialize_injective := by
    intro v v' heq
    cases v <;> cases v' <;> first | rfl | exact absurd heq (by decide)
  serialize_ne := by
    intro v
    cases v <;> decide
  md5_injective := sampleDigest_injective
  md5_colon := colon_not_mem_sampleDigest
  loads_dumps := loadsJson_dumpsJson
  dumps_braces := dumpsJson_braces

def sampleCall (userPrompt : String) (systemPrompt : Option String) : LlmCall Bool :=
  ⟨userPrompt, systemPrompt, [], "extract", none, none, true⟩

/-- The line break that joins two texts may stand in one of them. -/
def joinedCalls : List (Call Bool) :=
  [.useLlmFuncWithCache (sampleCall "A" (some "B")),
    .useLlmFuncWithCache (sampleCall "A\nB" none)]

def taggedCalls : List (Call Bool) :=
  [.extractKeywordsOnly .mix "tagged", .extractKeywordsOnly .mix "tagged"]

/-- One request twice, and keywords without a tag twice. -/
def plainCalls : List (Call Bool) :=
  [.useLlmFuncWithCache (sampleCall "A" (some "B")),
    .useLlmFuncWithCache (sampleCall "A" (some "B")),
    .extractKeywordsOnly .mix "plain", .extractKeywordsOnly .mix "plain"]

theorem plainCalls_unambiguous : Unambiguous sampleHost plainCalls where
  texts := by
    intro c c' hc hc' _ _ _ _
    simp only [plainCalls,mem_cons,Call.useLlmFuncWithCache.injEq,not_mem_nil,
      reduceCtorEq,or_false,or_self] at hc hc'
    rw [hc,hc']
  kgResponseTypes := by
    intro q q' hq
    simp [plainCalls] at hq
  naiveResponseTypes := by
    intro q q' hq
    simp [plainCalls] at hq
  keywords := by
    intro call hcall mode text hextracted
    have htag : ¬ HasClosingTag (sampleHost.dumpsKeywords
        (extractedKeywords sampleHost "plain")) := by
      unfold HasClosingTag
      decide +kernel
    simp only [plainCalls,mem_cons,not_mem_nil,or_false] at hcall
    rcases hcall with rfl | rfl | rfl | rfl
    · cases hextracted
    · cases hextracted
    · cases hextracted
      exact htag
    · cases hextracted
      exact htag

end LightRAG.LlmCache
