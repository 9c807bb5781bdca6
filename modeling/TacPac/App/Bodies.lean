import TacPac.App.Server
import TacPac.Lib.Form
import TacPac.Lib.JsonString

/-!
# What the server reads of a request

`login` and `signup` put what was typed into a form, and `export` into a JSON string, as
it is; `toJSON` leaves that to `JSONSerialization`. So the server reads what was typed
exactly if there was nothing to escape in it (`decode_bodies`): no `&`, no `+` and no
percent escape in a form, and no quote and no backslash in a string. A password that the
server asks to have a character that is neither letter nor digit may well have one of
those.
-/

namespace TacPac.App.TacPacServer

open TacPac.Lib

/-- The fields of a login, as they are typed. -/
def loginFields (username password : Utf16) : Form.Fields :=
  [(utf16 "grant_type", utf16 "password"), (utf16 "username", username),
    (utf16 "password", password)]

/-- The fields of a sign-up. -/
def signupFields (username password firstName lastName birthday : Utf16) : Form.Fields :=
  [(utf16 "Email", username), (utf16 "Password", password), (utf16 "FirstName", firstName),
    (utf16 "LastName", lastName), (utf16 "Birthday", birthday)]

theorem loginBody_eq (username password : Utf16) :
    loginBody username password = Form.joined (loginFields username password) := by
  have hgrant : utf16 "grant_type=password&username="
      = Form.field (utf16 "grant_type", utf16 "password")
        ++ Form.ampersand :: (utf16 "username" ++ [Form.equals]) := rfl
  have hpassword : utf16 "&password="
      = Form.ampersand :: (utf16 "password" ++ [Form.equals]) := rfl
  unfold loginBody
  rw [hgrant, hpassword]
  simp [Form.joined, loginFields, Form.field]

theorem signupBody_eq (username password firstName lastName birthday : Utf16) :
    signupBody username password firstName lastName birthday
      = Form.joined (signupFields username password firstName lastName birthday) := by
  have hemail : utf16 "Email=" = utf16 "Email" ++ [Form.equals] := rfl
  have hpassword : utf16 "&Password="
      = Form.ampersand :: (utf16 "Password" ++ [Form.equals]) := rfl
  have hfirst : utf16 "&FirstName="
      = Form.ampersand :: (utf16 "FirstName" ++ [Form.equals]) := rfl
  have hlast : utf16 "&LastName="
      = Form.ampersand :: (utf16 "LastName" ++ [Form.equals]) := rfl
  have hbirthday : utf16 "&Birthday="
      = Form.ampersand :: (utf16 "Birthday" ++ [Form.equals]) := rfl
  unfold signupBody
  rw [hemail, hpassword, hfirst, hlast, hbirthday]
  simp [Form.joined, signupFields, Form.field]

theorem exportBody_eq (email : Utf16) : exportBody email = JsonString.quoted email := by
  have hquote : utf16 "\"" = [JsonString.quote] := rfl
  unfold exportBody
  rw [hquote]
  rfl

theorem loginFields_plain (username password : Utf16) :
    ∀ f ∈ loginFields username password, Form.Plain f.1 := by
  unfold loginFields Form.Plain
  simp only [List.forall_mem_cons, List.not_mem_nil, false_implies, implies_true, and_true]
  decide +kernel

theorem signupFields_plain (username password firstName lastName birthday : Utf16) :
    ∀ f ∈ signupFields username password firstName lastName birthday, Form.Plain f.1 := by
  unfold signupFields Form.Plain
  simp only [List.forall_mem_cons, List.not_mem_nil, false_implies, implies_true, and_true]
  decide +kernel

/-- **What the server reads** of the three bodies. -/
theorem decode_bodies (owin webApi : Form.Decoder) (reader : JsonString.Reader) :
    (∀ username password, owin.decode (loginBody username password) = loginFields username password
      ↔ owin.Keeps username ∧ owin.Keeps password)
    ∧ (∀ username password firstName lastName birthday,
        webApi.decode (signupBody username password firstName lastName birthday)
          = signupFields username password firstName lastName birthday
        ↔ webApi.Keeps username ∧ webApi.Keeps password ∧ webApi.Keeps firstName
          ∧ webApi.Keeps lastName ∧ webApi.Keeps birthday)
    ∧ ∀ email, reader.read (exportBody email) = some email ↔ reader.Keeps email := by
  refine ⟨fun username password => ?_, fun username password firstName lastName birthday => ?_,
    fun email => ?_⟩
  · have hgrant : owin.Keeps (utf16 "password") :=
      ⟨by decide +kernel, by decide +kernel, owin.unescape_plain _ (by decide +kernel)⟩
    rw [loginBody_eq, Form.decode_joined owin (by simp [loginFields]) (loginFields_plain _ _)]
    simp [loginFields, hgrant]
  · rw [signupBody_eq, Form.decode_joined webApi (by simp [signupFields])
      (signupFields_plain _ _ _ _ _)]
    simp [signupFields]
  · rw [exportBody_eq, JsonString.read_quoted]

/-- A password that is cut off. -/
theorem decode_bodies_cut :
    ¬ ∀ (owin webApi : Form.Decoder) (reader : JsonString.Reader),
      (∀ username password,
        owin.decode (loginBody username password) = loginFields username password)
      ∧ (∀ username password firstName lastName birthday,
          webApi.decode (signupBody username password firstName lastName birthday)
            = signupFields username password firstName lastName birthday)
      ∧ ∀ email, reader.read (exportBody email) = some email := by
  intro h
  have hlogin := (h Form.percentDecoder Form.percentDecoder
    ⟨fun _ => true, fun _ => true, fun _ _ => rfl, rfl⟩).1 (utf16 "ann@jhu.edu") (utf16 "Aa1&bc")
  revert hlogin
  decide +kernel

end TacPac.App.TacPacServer
