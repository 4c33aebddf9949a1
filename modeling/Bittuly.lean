import Bittuly.Consumer.ClickSafety
import Bittuly.Consumer.ClickLoop
import Bittuly.Consumer.ClickCounts
import Bittuly.Consumer.Cascade
import Bittuly.Consumer.Eviction
import Bittuly.Consumer.DeletedAccount
import Bittuly.Urls.Redirect
import Bittuly.Urls.Explained
import Bittuly.Urls.Overshoot
import Bittuly.Urls.Deletion
import Bittuly.Urls.FreshLinks
import Bittuly.Urls.Sequential
import Bittuly.Urls.Tenancy
import Bittuly.Urls.Concurrent
import Bittuly.Urls.Search
import Bittuly.Urls.Walk
import Bittuly.Urls.MockRefinement
import Bittuly.Urls.RepoCalls
import Bittuly.Auth.Session
import Bittuly.Auth.CookieHeader
import Bittuly.Auth.Login
import Bittuly.Auth.Signup
import Bittuly.Gateway.Locations
import Bittuly.Web.ListKeys
import Bittuly.Web.LatestSearch
import Bittuly.Urls.Coalescing
import Bittuly.Consumer.Analytics
import Bittuly.Auth.Provenance
import Bittuly.Consumer.TraceContext
import Bittuly.Consumer.ClickDrain
import Bittuly.Consumer.CascadeDrain
import Bittuly.Gateway.Dispatch
import Bittuly.Web.SignedIn
import Bittuly.Web.Spinners
import Bittuly.Auth.UserRepos
import Bittuly.Urls.SplitRepo
import Bittuly.Consumer.Queues
