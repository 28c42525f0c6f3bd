import StylePrune.Url

/-!
References from a page to its sheets and from a sheet to the ones it imports.
-/

set_option autoImplicit false

namespace StylePrune.Sampling

/-- The first of these that is a text with something in it, else a slash. -/
def basisOf (base pageUrl : Option Text) : Text :=
  match base, pageUrl with
  | some (c :: s), _ => c :: s
  | _, some (c :: s) => c :: s
  | _, _ => ['/']

/-- The locator that a reference means in the sheet at `base`, or in the page itself. -/
def resolve (pageUrl : Option Text) (ref : Text) (base : Option Text) : Except Url.Error Text :=
  Url.join (basisOf base pageUrl) ref

/-- Does a locator lie at the host and under the scheme of the page? Without a host it does. -/
def sharesOrigin (pageUrl : Option Text) (url : Text) : Except Url.Error Bool :=
  match Url.parse url with
  | .error e => .error e
  | .ok target =>
    if target.netloc = [] then .ok true
    else match pageUrl with
    | none | some [] => .ok false
    | some page => (Url.parse page).map fun p => target.scheme = p.scheme && target.netloc = p.netloc

end StylePrune.Sampling
