import TacPac.Groupme.Registrations
import TacPac.Groupme.Isolation
import TacPac.Groupme.Totals
import TacPac.Groupme.Stepwise
import TacPac.Groupme.Nicknames
import TacPac.Groupme.Echo
import TacPac.Groupme.Malformed
import TacPac.Web.Signups
import TacPac.Web.Logins
import TacPac.App.Fleet
import TacPac.App.Export
