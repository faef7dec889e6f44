import BoatRudder.Runs.Calls
import BoatRudder.WebServer.FormFields

/-! # The name of the site

`cms_site_settings.c` as far as the name goes: an administrator stores it with the settings' form, and
the pages and the mails are given it as it is stored. -/

namespace BoatRudder.Db

/-- `SITE_NAME_DEFAULT`. -/
def siteNameDefault : Bytes := lit "Boat Rudder"

/-- `cms_get_site_name`, with the name that is stored, if one is. -/
def cmsGetSiteName (stored : Option Bytes) : Bytes := stored.getD siteNameDefault

/-- `cms_update_site_name`. -/
def cmsUpdateSiteName (name : Bytes) (stored : Option Bytes) (write : WriteOutcome) : Option Bytes :=
  if write = .failed then stored else some name

/-- What `POST /dashboard/settings` does for an administrator: any name but the empty one is stored. -/
def postSettings (body : Bytes) (stored : Option Bytes) (write : WriteOutcome) : Option Bytes :=
  let name := WebServer.parseUrlencodedField body (lit "site_name") 128
  if name = [] then stored else cmsUpdateSiteName name stored write

end BoatRudder.Db
